import Mathlib.Data.Int.Log
import Mathlib.Data.Rat.Floor
import Mathlib.Order.WithBot
import Mathlib.Tactic

/-!
# Binary64 numbers

The IEEE 754 double format over exact rationals. A `Number` is a finite value
with a 53-bit significand, or one of the two infinities, and is linearly
ordered. `Float64` adds NaN with the comparisons of the standard. Rounding is to
nearest, ties to even, with gradual underflow. The two signed zeros are one value:
no comparison tells them apart.
-/
namespace Deckard.Binary64

/-- The finite values of the format, written with an integer significand. -/
def Representable (q : ℚ) : Prop :=
  ∃ m e : ℤ, |m| < 2 ^ 53 ∧ -1074 ≤ e ∧ e ≤ 971 ∧ q = m * 2 ^ e

/-- A double that is not NaN. -/
inductive Number
  | negInf
  | finite (q : ℚ) (h : Representable q)
  | posInf
  deriving DecidableEq

namespace Number

def toExt : Number → WithBot (WithTop ℚ)
  | negInf => ⊥
  | finite q _ => ((q : WithTop ℚ) : WithBot (WithTop ℚ))
  | posInf => ((⊤ : WithTop ℚ) : WithBot (WithTop ℚ))

theorem toExt_injective : Function.Injective toExt := by
  intro x y h
  cases x <;> cases y <;> simp_all [toExt]

instance : LinearOrder Number := LinearOrder.lift' toExt toExt_injective

theorem le_iff_toExt {x y : Number} : x ≤ y ↔ toExt x ≤ toExt y := Iff.rfl

theorem lt_iff_toExt {x y : Number} : x < y ↔ toExt x < toExt y := Iff.rfl

@[simp] theorem finite_le_finite {p q : ℚ} {hp : Representable p} {hq : Representable q} :
    finite p hp ≤ finite q hq ↔ p ≤ q := by simp [le_iff_toExt, toExt]

@[simp] theorem finite_lt_finite {p q : ℚ} {hp : Representable p} {hq : Representable q} :
    finite p hp < finite q hq ↔ p < q := by simp [lt_iff_toExt, toExt]

@[simp] theorem negInf_le (x : Number) : negInf ≤ x := by simp [le_iff_toExt, toExt]

@[simp] theorem le_posInf (x : Number) : x ≤ posInf := by
  cases x <;> simp [le_iff_toExt, toExt]

end Number

/-- Nearest integer, ties to even. -/
def roundEven (q : ℚ) : ℤ :=
  if 2 * (q - ⌊q⌋) < 1 then ⌊q⌋
  else if 1 < 2 * (q - ⌊q⌋) then ⌊q⌋ + 1
  else if Even ⌊q⌋ then ⌊q⌋ else ⌊q⌋ + 1

@[simp] theorem roundEven_intCast (n : ℤ) : roundEven n = n := by
  simp [roundEven]

theorem floor_le_roundEven (q : ℚ) : ⌊q⌋ ≤ roundEven q := by
  unfold roundEven
  split_ifs <;> omega

theorem roundEven_le_floor_add_one (q : ℚ) : roundEven q ≤ ⌊q⌋ + 1 := by
  unfold roundEven
  split_ifs <;> omega

theorem roundEven_mono {p q : ℚ} (h : p ≤ q) : roundEven p ≤ roundEven q := by
  rcases (Int.floor_le_floor h).lt_or_eq with hlt | heq
  · have hp := roundEven_le_floor_add_one p
    have hq := floor_le_roundEven q
    omega
  · unfold roundEven
    rw [heq]
    have hf : p - ⌊q⌋ ≤ q - ⌊q⌋ := by linarith
    split_ifs <;> first | omega | linarith

theorem roundEven_le_of_le {q : ℚ} {n : ℤ} (h : q ≤ n) : roundEven q ≤ n := by
  simpa using roundEven_mono h

theorem le_roundEven_of_le {q : ℚ} {n : ℤ} (h : (n : ℚ) ≤ q) : n ≤ roundEven q := by
  simpa using roundEven_mono h

/-- First power of two beyond the finite range. -/
def overflow : ℚ := 2 ^ (1024 : ℤ)

/-- Exponent of the last significand bit at magnitude `q`. -/
def exponent (q : ℚ) : ℤ := max (Int.log 2 q - 52) (-1074)

/-- Rounding of a nonnegative rational, before overflow. -/
def roundMag (q : ℚ) : ℚ := roundEven (q / 2 ^ exponent q) * 2 ^ exponent q

theorem two_zpow_pos (e : ℤ) : (0 : ℚ) < 2 ^ e := zpow_pos (by norm_num) e

theorem exponent_ge (q : ℚ) : -1074 ≤ exponent q := le_max_right _ _

theorem div_exponent_lt (q : ℚ) : q / 2 ^ exponent q < 2 ^ 53 := by
  rw [div_lt_iff₀ (two_zpow_pos _)]
  have hlog : q < 2 ^ (Int.log 2 q + 1) := by
    exact_mod_cast Int.lt_zpow_succ_log_self (by norm_num : 1 < 2) q
  have hexp : (2 : ℚ) ^ (Int.log 2 q + 1) ≤ 2 ^ (53 + exponent q) :=
    zpow_le_zpow_right₀ (by norm_num) (by unfold exponent; omega)
  have hsplit : (2 : ℚ) ^ (53 + exponent q) = 2 ^ 53 * 2 ^ exponent q := by
    rw [zpow_add₀ (by norm_num)]; norm_num
  linarith

theorem roundMag_nonneg {q : ℚ} (hq : 0 ≤ q) : 0 ≤ roundMag q := by
  have hdiv : ((0 : ℤ) : ℚ) ≤ q / 2 ^ exponent q := by
    simpa using div_nonneg hq (two_zpow_pos (exponent q)).le
  have hround : (0 : ℚ) ≤ roundEven (q / 2 ^ exponent q) := by
    exact_mod_cast le_roundEven_of_le hdiv
  exact mul_nonneg hround (two_zpow_pos _).le

/-- A nonnegative value of the format is its own rounding. -/
theorem roundMag_of_representable {q : ℚ} (hq : 0 ≤ q) (h : Representable q) :
    roundMag q = q := by
  obtain ⟨m, e, hm, he, -, rfl⟩ := h
  rcases hq.eq_or_lt with hz | hpos
  · rw [← hz]; simp [roundMag, roundEven]
  have hm0 : 0 < m := by
    by_contra hneg
    have : (m : ℚ) ≤ 0 := by exact_mod_cast not_lt.mp hneg
    have := mul_nonpos_of_nonpos_of_nonneg this (two_zpow_pos e).le
    linarith
  have hlog : Int.log 2 ((m : ℚ) * 2 ^ e) < 53 + e := by
    rw [← Int.lt_zpow_iff_log_lt (by norm_num) hpos, zpow_add₀ (by norm_num)]
    have hm' : (m : ℚ) < 2 ^ 53 := by exact_mod_cast (abs_lt.mp hm).2
    exact_mod_cast mul_lt_mul_of_pos_right hm' (two_zpow_pos e)
  have hle : exponent ((m : ℚ) * 2 ^ e) ≤ e := by unfold exponent; omega
  obtain ⟨k, hk⟩ := Int.le.dest hle
  have hdiv : (m : ℚ) * 2 ^ e / 2 ^ exponent ((m : ℚ) * 2 ^ e) = ((m * 2 ^ k : ℤ) : ℚ) := by
    rw [div_eq_iff (two_zpow_pos _).ne', Int.cast_mul, Int.cast_pow, Int.cast_ofNat, mul_assoc,
      ← zpow_natCast, ← zpow_add₀ (by norm_num), add_comm (k : ℤ), hk]
  unfold roundMag
  rw [hdiv, roundEven_intCast, ← hdiv, div_mul_cancel₀ _ (two_zpow_pos _).ne']

/-- Above the subnormal range the scaled significand has all its 53 bits. -/
theorem div_exponent_ge {q : ℚ} (hq : 0 < q) (h : -1074 < exponent q) :
    2 ^ 52 ≤ q / 2 ^ exponent q := by
  rw [le_div_iff₀ (two_zpow_pos _)]
  have hlog : (2 : ℚ) ^ Int.log 2 q ≤ q := by
    exact_mod_cast Int.zpow_log_le_self (by norm_num : 1 < 2) hq
  have hexp : exponent q = Int.log 2 q - 52 := by unfold exponent at *; omega
  have hsplit : (2 : ℚ) ^ Int.log 2 q = 2 ^ 52 * 2 ^ exponent q := by
    rw [show Int.log 2 q = 52 + exponent q by omega, zpow_add₀ (by norm_num)]; norm_num
  linarith

theorem roundEven_div_exponent_le (q : ℚ) : roundEven (q / 2 ^ exponent q) ≤ 2 ^ 53 :=
  roundEven_le_of_le (by exact_mod_cast (div_exponent_lt q).le)

/-- A rounded magnitude below the overflow threshold is a value of the format. -/
theorem representable_roundMag {q : ℚ} (hq : 0 ≤ q) (h : roundMag q < overflow) :
    Representable (roundMag q) := by
  rcases hq.eq_or_lt with rfl | hpos
  · exact ⟨0, 0, by simp [roundMag, roundEven]⟩
  have hle := roundEven_div_exponent_le q
  have hge := exponent_ge q
  have hnn : 0 ≤ roundEven (q / 2 ^ exponent q) :=
    le_roundEven_of_le (by simpa using div_nonneg hq (two_zpow_pos (exponent q)).le)
  have hbound (k : ℕ) (hk : (2 : ℤ) ^ k ≤ roundEven (q / 2 ^ exponent q)) :
      exponent q + k < 1024 := by
    have hk' : (2 : ℚ) ^ k ≤ roundEven (q / 2 ^ exponent q) := by exact_mod_cast hk
    have hlt : (2 : ℚ) ^ (exponent q + k) < 2 ^ (1024 : ℤ) := by
      rw [zpow_add₀ (by norm_num), mul_comm, zpow_natCast]
      exact (mul_le_mul_of_nonneg_right hk' (two_zpow_pos _).le).trans_lt h
    exact (zpow_lt_zpow_iff_right₀ (by norm_num)).mp hlt
  rcases hle.lt_or_eq with hlt | heq
  · refine ⟨roundEven (q / 2 ^ exponent q), exponent q, ?_, hge, ?_, rfl⟩
    · rw [abs_of_nonneg hnn]; exact hlt
    · by_cases hsub : -1074 < exponent q
      · have hmin : (2 : ℤ) ^ 52 ≤ roundEven (q / 2 ^ exponent q) :=
          le_roundEven_of_le (by exact_mod_cast div_exponent_ge hpos hsub)
        have := hbound 52 hmin
        omega
      · omega
  · have := hbound 53 heq.ge
    refine ⟨2 ^ 52, exponent q + 1, by norm_num, by omega, by omega, ?_⟩
    rw [roundMag, heq, zpow_add₀ (by norm_num)]
    push_cast
    ring

theorem roundMag_le_zpow {q : ℚ} {k : ℤ} (hk : exponent q + 53 ≤ k) : roundMag q ≤ 2 ^ k := by
  have hround : (roundEven (q / 2 ^ exponent q) : ℚ) ≤ 2 ^ 53 := by
    exact_mod_cast roundEven_div_exponent_le q
  calc roundMag q ≤ 2 ^ 53 * 2 ^ exponent q :=
        mul_le_mul_of_nonneg_right hround (two_zpow_pos _).le
    _ = 2 ^ (exponent q + 53) := by rw [zpow_add₀ (by norm_num), mul_comm]; norm_num
    _ ≤ 2 ^ k := zpow_le_zpow_right₀ (by norm_num) hk

theorem zpow_le_roundMag {q : ℚ} (hq : 0 < q) (h : -1074 < exponent q) :
    2 ^ (exponent q + 52) ≤ roundMag q := by
  have hint : (2 : ℤ) ^ 52 ≤ roundEven (q / 2 ^ exponent q) :=
    le_roundEven_of_le (by exact_mod_cast div_exponent_ge hq h)
  have hround : (2 : ℚ) ^ 52 ≤ roundEven (q / 2 ^ exponent q) := by exact_mod_cast hint
  calc (2 : ℚ) ^ (exponent q + 52) = 2 ^ 52 * 2 ^ exponent q := by
        rw [zpow_add₀ (by norm_num), mul_comm]; norm_num
    _ ≤ roundMag q := mul_le_mul_of_nonneg_right hround (two_zpow_pos _).le

/-- Within one exponent the integer rounding is monotone; across exponents a
power of two separates the two results. -/
theorem roundMag_mono {p q : ℚ} (hp : 0 ≤ p) (h : p ≤ q) : roundMag p ≤ roundMag q := by
  rcases hp.eq_or_lt with rfl | hpos
  · simpa [roundMag, roundEven] using roundMag_nonneg h
  have hexp : exponent p ≤ exponent q := by
    have := Int.log_mono_right (b := 2) hpos h
    unfold exponent
    omega
  rcases hexp.lt_or_eq with hlt | heq
  · have hsub : -1074 < exponent q := (exponent_ge p).trans_lt hlt
    exact (roundMag_le_zpow (by omega)).trans (zpow_le_roundMag (hpos.trans_le h) hsub)
  · unfold roundMag
    rw [heq]
    have hdiv : p / 2 ^ exponent q ≤ q / 2 ^ exponent q :=
      div_le_div_of_nonneg_right h (two_zpow_pos _).le
    exact mul_le_mul_of_nonneg_right (by exact_mod_cast roundEven_mono hdiv) (two_zpow_pos _).le

/-- Round to nearest, ties to even, in sign and magnitude. -/
def round (q : ℚ) : ℚ := if 0 ≤ q then roundMag q else -roundMag (-q)

theorem round_mono {p q : ℚ} (h : p ≤ q) : round p ≤ round q := by
  unfold round
  split_ifs with hp hq hq
  · exact roundMag_mono hp h
  · exact absurd (hp.trans h) hq
  · have hp' := roundMag_nonneg (q := -p) (by linarith)
    have hq' := roundMag_nonneg hq
    linarith
  · exact neg_le_neg (roundMag_mono (by linarith) (by linarith))

theorem Representable.neg {q : ℚ} (h : Representable q) : Representable (-q) := by
  obtain ⟨m, e, hm, hlo, hhi, rfl⟩ := h
  exact ⟨-m, e, by rwa [abs_neg], hlo, hhi, by push_cast; ring⟩

theorem round_of_representable {q : ℚ} (h : Representable q) : round q = q := by
  unfold round
  split_ifs with hq
  · exact roundMag_of_representable hq h
  · rw [roundMag_of_representable (by linarith) h.neg, neg_neg]

theorem representable_round {q : ℚ} (h : |round q| < overflow) : Representable (round q) := by
  obtain ⟨hlo, hhi⟩ := abs_lt.mp h
  unfold round at *
  split_ifs at * with hq
  · exact representable_roundMag hq hhi
  · exact (representable_roundMag (by linarith) (by linarith)).neg

theorem Representable.abs_lt {q : ℚ} (h : Representable q) : |q| < overflow := by
  obtain ⟨m, e, hm, -, hhi, rfl⟩ := h
  have hm' : |(m : ℚ)| < 2 ^ 53 := by exact_mod_cast hm
  have hexp : (2 : ℚ) ^ e ≤ 2 ^ (971 : ℤ) := zpow_le_zpow_right₀ (by norm_num) hhi
  rw [abs_mul, abs_of_pos (two_zpow_pos e)]
  calc |(m : ℚ)| * 2 ^ e < 2 ^ 53 * 2 ^ e := mul_lt_mul_of_pos_right hm' (two_zpow_pos e)
    _ ≤ 2 ^ 53 * 2 ^ (971 : ℤ) := mul_le_mul_of_nonneg_left hexp (by norm_num)
    _ = overflow := by
      rw [overflow, ← zpow_natCast, ← zpow_add₀ (by norm_num)]
      norm_num

namespace Number

/-- The double nearest to a rational; overflow gives an infinity. -/
def ofRat (q : ℚ) : Number :=
  if h : |round q| < overflow then finite (round q) (representable_round h)
  else if 0 ≤ q then posInf else negInf

theorem ofRat_of_representable {q : ℚ} (h : Representable q) : ofRat q = finite q h := by
  have hr := round_of_representable h
  unfold ofRat
  rw [dif_pos (by rw [hr]; exact h.abs_lt)]
  simp [hr]

theorem round_nonneg {q : ℚ} (h : 0 ≤ q) : 0 ≤ round q := by
  rw [round, if_pos h]; exact roundMag_nonneg h

theorem round_nonpos {q : ℚ} (h : ¬ 0 ≤ q) : round q ≤ 0 := by
  rw [round, if_neg h, neg_nonpos]; exact roundMag_nonneg (by linarith)

/-- Overflow is monotone too: a finite result never lies beyond an infinite one. -/
theorem ofRat_mono {p q : ℚ} (h : p ≤ q) : ofRat p ≤ ofRat q := by
  have hr := round_mono h
  by_cases hp : |round p| < overflow <;> by_cases hq : |round q| < overflow
  · rw [ofRat, dif_pos hp, ofRat, dif_pos hq]
    exact finite_le_finite.mpr hr
  · by_cases hq0 : 0 ≤ q
    · simp [ofRat, hq, hq0]
    · have hneg := round_nonpos hq0
      rw [abs_of_nonpos hneg, not_lt] at hq
      have := (abs_lt.mp hp).1
      linarith
  · by_cases hp0 : 0 ≤ p
    · have hpos := round_nonneg hp0
      rw [abs_of_nonneg hpos, not_lt] at hp
      have := (abs_lt.mp hq).2
      linarith
    · simp [ofRat, hp, hp0]
  · by_cases hp0 : 0 ≤ p
    · simp [ofRat, hq, hp0.trans h]
    · simp [ofRat, hp, hp0]

/-- Conversion of an integer, as a language does for a 64-bit integer and as a
decimal parser does for its digits. -/
def ofInt (n : ℤ) : Number := ofRat n

theorem ofInt_mono {m n : ℤ} (h : m ≤ n) : ofInt m ≤ ofInt n :=
  ofRat_mono (by exact_mod_cast h)

end Number

theorem representable_int {n : ℤ} (h : |n| ≤ 2 ^ 53) : Representable n := by
  rcases h.lt_or_eq with hlt | heq
  · exact ⟨n, 0, hlt, by norm_num, by norm_num, by simp⟩
  · rcases eq_or_eq_neg_of_abs_eq heq with rfl | rfl
    · exact ⟨2 ^ 52, 1, by norm_num, by norm_num, by norm_num, by norm_num⟩
    · exact ⟨-2 ^ 52, 1, by norm_num, by norm_num, by norm_num, by norm_num⟩

namespace Number

theorem ofInt_of_abs_le {n : ℤ} (h : |n| ≤ 2 ^ 53) : ofInt n = finite n (representable_int h) :=
  ofRat_of_representable _

/-- Integers below `2 ^ 53` are compared exactly with every converted integer. -/
theorem ofInt_le_ofInt_iff {m n : ℤ} (h : |n| < 2 ^ 53) : ofInt m ≤ ofInt n ↔ m ≤ n := by
  refine ⟨fun hle => ?_, ofInt_mono⟩
  by_contra hlt
  have hn1 : |n + 1| ≤ 2 ^ 53 := by rw [abs_lt] at h; rw [abs_le]; omega
  have hstep : ofInt n < ofInt (n + 1) := by
    rw [ofInt_of_abs_le h.le, ofInt_of_abs_le hn1, finite_lt_finite]
    push_cast
    linarith
  exact absurd (hstep.trans_le ((ofInt_mono (by omega)).trans hle)) (lt_irrefl _)

theorem ofInt_le_ofInt_iff_left {m n : ℤ} (h : |m| < 2 ^ 53) : ofInt m ≤ ofInt n ↔ m ≤ n := by
  refine ⟨fun hle => ?_, ofInt_mono⟩
  by_contra hlt
  have hm1 : |m - 1| < 2 ^ 53 + 1 := by rw [abs_lt] at h ⊢; omega
  have hstep : ofInt (m - 1) < ofInt m := by
    rw [ofInt_of_abs_le (by omega), ofInt_of_abs_le h.le, finite_lt_finite]
    push_cast
    linarith
  exact absurd (hstep.trans_le (hle.trans (ofInt_mono (by omega)))) (lt_irrefl _)

end Number

/-- A double: NaN or a number. -/
inductive Float64
  | nan
  | num (x : Number)
  deriving DecidableEq

namespace Float64

/-- Every ordered comparison with NaN is false. -/
protected def lt : Float64 → Float64 → Prop
  | num x, num y => x < y
  | _, _ => False

protected def le : Float64 → Float64 → Prop
  | num x, num y => x ≤ y
  | _, _ => False

instance : LT Float64 := ⟨Float64.lt⟩

instance : LE Float64 := ⟨Float64.le⟩

instance : DecidableLT Float64
  | num x, num y => inferInstanceAs (Decidable (x < y))
  | nan, _ => isFalse (fun h => by cases h)
  | num _, nan => isFalse (fun h => by cases h)

instance : DecidableLE Float64
  | num x, num y => inferInstanceAs (Decidable (x ≤ y))
  | nan, _ => isFalse (fun h => by cases h)
  | num _, nan => isFalse (fun h => by cases h)

@[simp] theorem num_lt_num {x y : Number} : num x < num y ↔ x < y := Iff.rfl

@[simp] theorem num_le_num {x y : Number} : num x ≤ num y ↔ x ≤ y := Iff.rfl

protected theorem le_trans {x y z : Float64} (hxy : x ≤ y) (hyz : y ≤ z) : x ≤ z := by
  cases x with
  | nan => exact hxy
  | num x =>
    cases y with
    | nan => exact absurd hxy id
    | num y =>
      cases z with
      | nan => exact hyz
      | num z => exact (num_le_num.mp hxy).trans hyz

/-- Numbers are comparable. -/
protected theorem le_of_not_le {x y : Float64} (hx : x ≠ nan) (hy : y ≠ nan) (h : ¬ x ≤ y) :
    y ≤ x := by
  cases x with
  | nan => exact absurd rfl hx
  | num x =>
    cases y with
    | nan => exact absurd rfl hy
    | num y => exact (le_total x y).resolve_left h

@[simp] theorem not_nan_lt (y : Float64) : ¬ nan < y := fun h => h

@[simp] theorem not_lt_nan (x : Float64) : ¬ x < nan := by cases x <;> exact fun h => h

/-- The `==` of the standard: NaN equals nothing, itself included. -/
def eq : Float64 → Float64 → Bool
  | num x, num y => decide (x = y)
  | _, _ => false

@[simp] theorem num_eq_num (x y : Number) : eq (num x) (num y) = decide (x = y) := rfl

@[simp] theorem nan_eq (y : Float64) : eq nan y = false := rfl

def ofInt (n : ℤ) : Float64 := num (Number.ofInt n)

theorem ofInt_eq (n : ℤ) : ofInt n = num (.ofInt n) := rfl

theorem ofInt_ne_nan (n : ℤ) : ofInt n ≠ nan := by simp [ofInt_eq]

/-- Conversion to 64 bits by truncation. A value that does not fit becomes the least
integer, as the conversion instruction of amd64 has it. -/
def toInt64 : Float64 → Int64
  | num (.finite q _) =>
      let n := if 0 ≤ q then q.floor else q.ceil
      if -2 ^ 63 ≤ n ∧ n < 2 ^ 63 then Int64.ofInt n else Int64.minValue
  | _ => Int64.minValue

/-- Subtraction, rounded once from the exact difference. -/
def sub : Float64 → Float64 → Float64
  | num (.finite p _), num (.finite q _) => num (.ofRat (p - q))
  | num .posInf, num .posInf => nan
  | num .negInf, num .negInf => nan
  | num .posInf, num _ => num .posInf
  | num .negInf, num _ => num .negInf
  | num (.finite _ _), num .posInf => num .negInf
  | num (.finite _ _), num .negInf => num .posInf
  | _, _ => nan

def neg : Float64 → Float64
  | num (.finite q h) => num (.finite (-q) h.neg)
  | num .posInf => num .negInf
  | num .negInf => num .posInf
  | nan => nan

/-- Addition, rounded once from the exact sum. -/
def add (x y : Float64) : Float64 := sub x (neg y)

/-- A finite minuend never produces NaN from a number. -/
theorem sub_ne_nan {q : ℚ} {h : Representable q} {y : Float64} (hy : y ≠ nan) :
    sub (num (.finite q h)) y ≠ nan := by
  cases y with
  | nan => contradiction
  | num y => cases y <;> simp [sub]

end Float64

end Deckard.Binary64
