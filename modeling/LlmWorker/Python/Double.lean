import Mathlib.Data.Int.Log
import Mathlib.Data.Rat.Floor
import Mathlib.Tactic.Linarith
import Mathlib.Tactic.NormNum

/-!
# Subtraction of floats

A double is the rational number it stands for. The difference of two doubles is
the double nearest to it, the even one of two that are equally near. Exponents
have no upper end here, which no difference of clock readings comes near.
-/

namespace Python.Double

/-- The nearest whole number, the even one of two that are equally near. -/
def roundEven (x : Rat) : Int :=
  if x - ⌊x⌋ < 1 / 2 then ⌊x⌋
  else if x - ⌊x⌋ = 1 / 2 ∧ ⌊x⌋ % 2 = 0 then ⌊x⌋
  else ⌊x⌋ + 1

/-- The exponent of the last of 53 significant bits; the least is that of the subnormal doubles. -/
def lastBit (x : Rat) : Int := max (Int.log 2 |x| - 52) (-1074)

def nearest (x : Rat) : Rat := roundEven (x / 2 ^ lastBit x) * 2 ^ lastBit x

/-- `x - y` -/
def sub (x y : Rat) : Rat := nearest (x - y)

-- The exact difference of the doubles nearest to 312.178374948 and 12.178374948 is below 300.
example : sub (nearest (312178374948 / 1000000000)) (nearest (12178374948 / 1000000000)) = 300 ∧
    nearest (312178374948 / 1000000000) - nearest (12178374948 / 1000000000) < 300 := by decide +kernel

-- ---------------------------------------------------------------------------
-- Rounding to a whole number
-- ---------------------------------------------------------------------------

theorem roundEven_intCast (n : Int) : roundEven n = n := by
  simp [roundEven]

theorem roundEven_between (x : Rat) : ⌊x⌋ ≤ roundEven x ∧ roundEven x ≤ ⌊x⌋ + 1 := by
  unfold roundEven
  split
  · omega
  · split <;> omega

theorem roundEven_mono {x y : Rat} (h : x ≤ y) : roundEven x ≤ roundEven y := by
  have hx := roundEven_between x
  have hy := roundEven_between y
  cases (Int.floor_mono h).lt_or_eq with
  | inl hlt => omega
  | inr heq =>
    unfold roundEven
    rw [heq]
    split_ifs <;> grind

-- ---------------------------------------------------------------------------
-- Rounding to a double
-- ---------------------------------------------------------------------------

theorem two_zpow_pos (e : Int) : (0 : Rat) < 2 ^ e := zpow_pos (by norm_num) e

/-- The multiples of the last bit of `x`. -/
def Grid (x p : Rat) : Prop := ∃ n : Int, p = n * 2 ^ lastBit x

theorem Grid.neg (h : Grid x p) : Grid x (-p) := by
  obtain ⟨n, rfl⟩ := h
  exact ⟨-n, by rw [Int.cast_neg, neg_mul]⟩

theorem grid_zero (x : Rat) : Grid x 0 := ⟨0, by simp⟩

theorem grid_zpow (h : lastBit x ≤ k) : Grid x (2 ^ k) := by
  refine ⟨2 ^ (k - lastBit x).toNat, ?_⟩
  have hk : ((k - lastBit x).toNat : Int) = k - lastBit x := Int.toNat_of_nonneg (by omega)
  rw [Int.cast_pow, ← zpow_natCast, hk, Int.cast_ofNat, ← zpow_add₀ (by norm_num)]
  simp

theorem nearest_le (h : x ≤ p) (hp : Grid x p) : nearest x ≤ p := by
  obtain ⟨n, rfl⟩ := hp
  have hround : roundEven (x / 2 ^ lastBit x) ≤ n := by
    rw [← roundEven_intCast n]
    exact roundEven_mono ((div_le_iff₀ (two_zpow_pos _)).mpr h)
  exact mul_le_mul_of_nonneg_right (by exact_mod_cast hround) (two_zpow_pos _).le

theorem le_nearest (h : p ≤ x) (hp : Grid x p) : p ≤ nearest x := by
  obtain ⟨n, rfl⟩ := hp
  have hround : n ≤ roundEven (x / 2 ^ lastBit x) := by
    rw [← roundEven_intCast n]
    exact roundEven_mono ((le_div_iff₀ (two_zpow_pos _)).mpr h)
  exact mul_le_mul_of_nonneg_right (by exact_mod_cast hround) (two_zpow_pos _).le

theorem nearest_mono_of_eq (h : x ≤ y) (hbit : lastBit x = lastBit y) : nearest x ≤ nearest y := by
  unfold nearest
  rw [hbit]
  have hround := roundEven_mono (div_le_div_of_nonneg_right h (two_zpow_pos (lastBit y)).le)
  exact mul_le_mul_of_nonneg_right (by exact_mod_cast hround) (two_zpow_pos _).le

/-- Where the last bit changes there is a power of two, on both grids. -/
theorem exists_pivot {x y : Rat} (h : |x| ≤ |y|) (hx : x ≠ 0) (hbit : lastBit x ≠ lastBit y) :
    ∃ p, |x| ≤ p ∧ p ≤ |y| ∧ Grid x p ∧ Grid y p := by
  have hpos : 0 < |x| := abs_pos.mpr hx
  have hlog : Int.log 2 |x| < Int.log 2 |y| := by
    have hle : Int.log 2 |x| ≤ Int.log 2 |y| := Int.log_mono_right hpos h
    unfold lastBit at hbit
    omega
  have hbelow := (Int.lt_zpow_iff_log_lt (b := 2) (by norm_num) hpos).mpr hlog
  have habove := Int.zpow_log_le_self (b := 2) (by norm_num) (hpos.trans_le h)
  refine ⟨2 ^ Int.log 2 |y|, by exact_mod_cast hbelow.le, by exact_mod_cast habove, ?_, ?_⟩
  · apply grid_zpow
    unfold lastBit at hbit ⊢
    omega
  · apply grid_zpow
    unfold lastBit at hbit ⊢
    omega

theorem nearest_mono : Monotone nearest := by
  intro x y h
  have between {p : Rat} (hx : x ≤ p) (hy : p ≤ y) (hgx : Grid x p) (hgy : Grid y p) : nearest x ≤ nearest y :=
    (nearest_le hx hgx).trans (le_nearest hy hgy)
  by_cases hbit : lastBit x = lastBit y
  · exact nearest_mono_of_eq h hbit
  by_cases hx : 0 < x
  · have hy : 0 < y := hx.trans_le h
    obtain ⟨p, hxp, hpy, hgx, hgy⟩ := exists_pivot (abs_le_abs_of_nonneg hx.le h) hx.ne' hbit
    rw [abs_of_pos hx] at hxp
    rw [abs_of_pos hy] at hpy
    exact between hxp hpy hgx hgy
  by_cases hy : y < 0
  · have hx : x < 0 := h.trans_lt hy
    obtain ⟨p, hyp, hpx, hgy, hgx⟩ := exists_pivot (abs_le_abs_of_nonpos hy.le h) hy.ne (Ne.symm hbit)
    rw [abs_of_neg hy] at hyp
    rw [abs_of_neg hx] at hpx
    exact between (le_neg.mp hpx) (neg_le.mp hyp) hgx.neg hgy.neg
  · exact between (not_lt.mp hx) (not_lt.mp hy) (grid_zero x) (grid_zero y)

-- ---------------------------------------------------------------------------
-- Differences
-- ---------------------------------------------------------------------------

theorem sub_le_sub {x x' y y' : Rat} (hx : x ≤ x') (hy : y' ≤ y) : sub x y ≤ sub x' y' :=
  nearest_mono (by linarith)

theorem le_of_sub_pos {x y : Rat} (h : 0 < sub x y) : y ≤ x := by
  by_contra hlt
  exact absurd h (not_lt.mpr (nearest_le (by linarith) (grid_zero _)))

end Python.Double
