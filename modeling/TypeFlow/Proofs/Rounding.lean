import Mathlib.Algebra.Order.Field.Power
import Mathlib.Algebra.Order.Floor.Semifield
import Mathlib.Data.Int.Log
import Mathlib.Data.Rat.Floor
import Mathlib.Tactic.FieldSimp
import Mathlib.Tactic.Linarith
import Mathlib.Tactic.NormNum
import Mathlib.Tactic.Positivity
import Mathlib.Tactic.Ring
import TypeFlow.Number.Binary64

/-! Rounding a fraction to 64 bits depends on its value alone, and a value close to that of a
magnitude rounds to the magnitude. -/

namespace TypeFlow.Number.Binary64

/-- The integer nearest to a value, a half going to the even one. -/
def nearest (x : ℚ) : Nat :=
  if 1 / 2 < x - ⌊x⌋₊ ∨ (x - ⌊x⌋₊ = 1 / 2 ∧ ⌊x⌋₊ % 2 = 1) then ⌊x⌋₊ + 1 else ⌊x⌋₊

/-- The exponent of the last bit that is kept of a value. -/
def lastBit (x : ℚ) : ℤ := max (Int.log 2 x - 52) (-1074)

/-- The magnitude nearest to a value. -/
def ofRatio (x : ℚ) : Nat :=
  if x = 0 then 0 else (lastBit x + 1074).toNat * 2 ^ 52 + nearest (x * 2 ^ (-lastBit x))

theorem roundDiv_eq_nearest (num : Nat) {den : Nat} (hden : 0 < den) :
    roundDiv num den = nearest ((num : ℚ) / den) := by
  have hd : (0 : ℚ) < den := by exact_mod_cast hden
  have hfloor : ⌊(num : ℚ) / den⌋₊ = num / den := Nat.floor_div_eq_div num den
  have hrest : (num : ℚ) / den - (num / den : Nat) = (num % den : Nat) / (den : ℚ) := by
    have hsplit : (num : ℚ) = den * (num / den : Nat) + (num % den : Nat) := by
      exact_mod_cast (Nat.div_add_mod num den).symm
    field_simp
    linarith
  have hlt : 1 / 2 < ((num % den : Nat) : ℚ) / den ↔ den < 2 * (num % den) := by
    rw [lt_div_iff₀ hd, ← Nat.cast_lt (α := ℚ)]
    push_cast
    constructor <;> intro h <;> linarith
  have heq : ((num % den : Nat) : ℚ) / den = 1 / 2 ↔ 2 * (num % den) = den := by
    rw [div_eq_iff hd.ne', ← Nat.cast_inj (R := ℚ)]
    push_cast
    constructor <;> intro h <;> linarith
  simp only [roundDiv, nearest, hfloor, hrest, hlt, heq, Bool.or_eq_true, Bool.and_eq_true,
    decide_eq_true_eq]

theorem nearest_eq_of_abs_lt {x : ℚ} (hx : 0 ≤ x) {n : Nat} (h : |x - n| < 1 / 2) :
    nearest x = n := by
  obtain ⟨hlo, hhi⟩ := abs_lt.mp h
  rcases lt_or_ge x n with hxn | hxn
  · -- The floor is one below `n`, and the rest is more than a half.
    have hn : 0 < n := by exact_mod_cast hx.trans_lt hxn
    have hpred : ((n - 1 : Nat) : ℚ) = n - 1 := by rw [Nat.cast_sub hn, Nat.cast_one]
    have hfloor : ⌊x⌋₊ = n - 1 := by
      have hle : (1 : ℚ) ≤ n := by exact_mod_cast hn
      rw [Nat.floor_eq_iff (by linarith), hpred]
      constructor <;> linarith
    rw [nearest, hfloor, hpred, if_pos (Or.inl (by linarith))]
    omega
  · have hfloor : ⌊x⌋₊ = n := by
      have hn : (0 : ℚ) ≤ n := Nat.cast_nonneg n
      rw [Nat.floor_eq_iff (by linarith)]
      constructor <;> linarith
    have hnot : ¬ (1 / 2 < x - n ∨ (x - n = 1 / 2 ∧ n % 2 = 1)) := by
      rintro (hl | ⟨he, -⟩) <;> linarith
    rw [nearest, hfloor, if_neg hnot]

theorem abs_nearest_sub_le {x : ℚ} (hx : 0 ≤ x) : |(nearest x : ℚ) - x| ≤ 1 / 2 := by
  have hlo : (⌊x⌋₊ : ℚ) ≤ x := Nat.floor_le hx
  have hhi : x < ⌊x⌋₊ + 1 := Nat.lt_floor_add_one x
  unfold nearest
  rw [abs_le]
  split_ifs with h
  · have hhalf : 1 / 2 ≤ x - ⌊x⌋₊ := by rcases h with h | ⟨h, -⟩ <;> linarith
    push_cast
    constructor <;> linarith
  · have hhalf : x - ⌊x⌋₊ ≤ 1 / 2 := by
      by_contra hc
      exact h (Or.inl (not_le.mp hc))
    constructor <;> linarith

/-! Fractions -/

theorem scale_den_pos {base : Nat} (hbase : 0 < base) (num : Nat) {den : Nat} (hden : 0 < den)
    (e : Int) : 0 < (scale base num den e).2 := by
  unfold scale
  split
  · exact hden
  · exact Nat.mul_pos hden (Nat.pow_pos hbase)

theorem scale_ratio (base num den : Nat) (e : Int) :
    ((scale base num den e).1 : ℚ) / (scale base num den e).2 = num / den * (base : ℚ) ^ e := by
  unfold scale
  split
  case isTrue h =>
    have hpow : (base : ℚ) ^ e = (Nat.pow base e.toNat : Nat) := by
      rw [Nat.pow_eq, Nat.cast_pow, ← zpow_natCast, Int.toNat_of_nonneg h]
    simp only [Nat.cast_mul, hpow]
    ring
  case isFalse h =>
    have hpow : (base : ℚ) ^ e = ((Nat.pow base (-e).toNat : Nat) : ℚ)⁻¹ := by
      rw [Nat.pow_eq, Nat.cast_pow, ← zpow_natCast, Int.toNat_of_nonneg (by omega), zpow_neg,
        inv_inv]
    simp only [Nat.cast_mul, hpow]
    rw [div_mul_eq_div_div, div_eq_mul_inv ((num : ℚ) / den)]

theorem scale_le_iff {base : Nat} (hbase : 0 < base) (num : Nat) {den : Nat} (hden : 0 < den)
    (e : Int) :
    (scale base num den (-e)).2 ≤ (scale base num den (-e)).1 ↔ (base : ℚ) ^ e ≤ num / den := by
  have hpos : (0 : ℚ) < (scale base num den (-e)).2 := by
    exact_mod_cast scale_den_pos hbase num hden (-e)
  rw [← Nat.cast_le (α := ℚ), ← one_le_div hpos, scale_ratio, zpow_neg, ← div_eq_mul_inv,
    one_le_div (by positivity)]

theorem log_eq_of_bounds {b : Nat} (hb : 1 < b) {x : ℚ} (hx : 0 < x) {e : ℤ} (hlo : (b : ℚ) ^ e ≤ x)
    (hhi : x < (b : ℚ) ^ (e + 1)) : Int.log b x = e := by
  have hle := (Int.zpow_le_iff_le_log hb hx).mp hlo
  have hlt := (Int.lt_zpow_iff_log_lt hb hx).mp hhi
  omega

theorem floorLog_eq_log {num den : Nat} (hnum : 0 < num) (hden : 0 < den) :
    floorLog num den = Int.log 2 ((num : ℚ) / den) := by
  have hn : (0 : ℚ) < num := by exact_mod_cast hnum
  have hd : (0 : ℚ) < den := by exact_mod_cast hden
  have hx : (0 : ℚ) < num / den := by positivity
  have hnlo : (2 : ℚ) ^ (num.log2 : ℤ) ≤ num := by exact_mod_cast Nat.log2_self_le hnum.ne'
  have hnhi : (num : ℚ) < 2 ^ ((num.log2 : ℤ) + 1) := by exact_mod_cast Nat.lt_log2_self
  have hdlo : (2 : ℚ) ^ (den.log2 : ℤ) ≤ den := by exact_mod_cast Nat.log2_self_le hden.ne'
  have hdhi : (den : ℚ) < 2 ^ ((den.log2 : ℤ) + 1) := by exact_mod_cast Nat.lt_log2_self
  have hlo : (2 : ℚ) ^ ((num.log2 : ℤ) - den.log2 - 1) ≤ num / den := by
    rw [le_div_iff₀ hd]
    calc (2 : ℚ) ^ ((num.log2 : ℤ) - den.log2 - 1) * den
        ≤ 2 ^ ((num.log2 : ℤ) - den.log2 - 1) * 2 ^ ((den.log2 : ℤ) + 1) := by gcongr
      _ = 2 ^ (num.log2 : ℤ) := by rw [← zpow_add₀ (by norm_num)]; congr 1; ring
      _ ≤ num := hnlo
  have hhi : (num : ℚ) / den < 2 ^ ((num.log2 : ℤ) - den.log2 + 1) := by
    rw [div_lt_iff₀ hd]
    calc (num : ℚ) < 2 ^ ((num.log2 : ℤ) + 1) := hnhi
      _ = 2 ^ ((num.log2 : ℤ) - den.log2 + 1) * 2 ^ (den.log2 : ℤ) := by
        rw [← zpow_add₀ (by norm_num)]; congr 1; ring
      _ ≤ 2 ^ ((num.log2 : ℤ) - den.log2 + 1) * den := by gcongr
  unfold floorLog
  simp only [scale_le_iff two_pos num hden, Nat.cast_ofNat]
  split
  case isTrue h =>
    exact (log_eq_of_bounds (by omega) hx (by exact_mod_cast h) (by exact_mod_cast hhi)).symm
  case isFalse h =>
    refine (log_eq_of_bounds (by omega) hx (by exact_mod_cast hlo) ?_).symm
    rw [sub_add_cancel]
    exact_mod_cast not_le.mp h

/-- Rounding depends on the value of a fraction alone. -/
theorem ofFraction_eq_ofRatio (num : Nat) {den : Nat} (hden : 0 < den) :
    ofFraction num den = ofRatio ((num : ℚ) / den) := by
  have hd : (den : ℚ) ≠ 0 := by exact_mod_cast hden.ne'
  rcases Nat.eq_zero_or_pos num with rfl | hnum
  · simp [ofFraction, ofRatio]
  · have hn : (num : ℚ) ≠ 0 := by exact_mod_cast hnum.ne'
    have hlast : max (floorLog num den - 52) (-1074) = lastBit ((num : ℚ) / den) := by
      rw [lastBit, floorLog_eq_log hnum hden]
    simp only [ofFraction, if_neg hnum.ne', hlast, ofRatio, if_neg (div_ne_zero hn hd),
      Nat.shiftLeft_eq]
    rw [roundDiv_eq_nearest _ (scale_den_pos two_pos num hden _), scale_ratio, Nat.cast_ofNat]

theorem ofScaled_eq_ofRatio {base : Nat} (hbase : 0 < base) (num : Nat) (e : Int) :
    ofScaled base num e = ofRatio (num * (base : ℚ) ^ e) := by
  rw [ofScaled, ofFraction_eq_ofRatio _ (scale_den_pos hbase num one_pos e), scale_ratio,
    Nat.cast_one, div_one]

/-! Values near a magnitude -/

theorem lastBit_eq {x : ℚ} (hx : 0 < x) {q : ℤ} (hq : -1074 ≤ q) (hhi : x < 2 ^ (q + 53))
    (hlo : q = -1074 ∨ 2 ^ (q + 52) ≤ x) : lastBit x = q := by
  have hlt : Int.log 2 x < q + 53 :=
    (Int.lt_zpow_iff_log_lt (by omega) hx).mp (by exact_mod_cast hhi)
  unfold lastBit
  rcases hlo with rfl | hlo
  · omega
  · have hle : q + 52 ≤ Int.log 2 x :=
      (Int.zpow_le_iff_le_log (by omega) hx).mp (by exact_mod_cast hlo)
    omega

theorem ofRatio_eq_of_abs_lt {x : ℚ} (hx : 0 < x) {q : ℤ} (hlast : lastBit x = q) {n : Nat}
    (h : |x - n * 2 ^ q| < 2 ^ q / 2) : ofRatio x = (q + 1074).toNat * 2 ^ 52 + n := by
  have hpow : (0 : ℚ) < 2 ^ q := by positivity
  have hscaled : |x * 2 ^ (-q) - n| < 1 / 2 := by
    have hfactor : x * 2 ^ (-q) - n = (x - n * 2 ^ q) / 2 ^ q := by
      rw [zpow_neg]
      field_simp
    rw [hfactor, abs_div, abs_of_pos hpow, div_lt_iff₀ hpow]
    linarith
  rw [ofRatio, if_neg hx.ne', hlast, nearest_eq_of_abs_lt (by positivity) hscaled]

theorem ofRatio_eq_of_close {sig : Nat} {q : ℤ} (hq : -1074 ≤ q) (hpos : 0 < sig)
    (hsig : sig < 2 ^ 53) (hnormal : q = -1074 ∨ 2 ^ 52 ≤ sig) {y : ℚ}
    (hclose : |y - sig * 2 ^ q| * (2 * 10 ^ 16) ≤ sig * 2 ^ q) :
    ofRatio y = (q + 1074).toNat * 2 ^ 52 + sig := by
  have hpow : (0 : ℚ) < 2 ^ q := by positivity
  have hone : (1 : ℚ) ≤ sig := by exact_mod_cast hpos
  have hsig' : (sig : ℚ) + 1 ≤ 2 ^ 53 := by exact_mod_cast hsig
  have hhalf : |y - sig * 2 ^ q| < 2 ^ q / 2 := by nlinarith
  obtain ⟨hlo, hhi⟩ := abs_lt.mp hhalf
  have hy : 0 < y := by nlinarith
  have h53 : (2 : ℚ) ^ (q + 53) = 2 ^ 53 * 2 ^ q := by
    rw [zpow_add₀ (by norm_num), mul_comm]
    norm_cast
  have h52 : (2 : ℚ) ^ (q + 52) = 2 ^ 52 * 2 ^ q := by
    rw [zpow_add₀ (by norm_num), mul_comm]
    norm_cast
  have hyhi : y < 2 ^ (q + 53) := by nlinarith
  by_cases hbinade : q = -1074 ∨ 2 ^ (q + 52) ≤ y
  · exact ofRatio_eq_of_abs_lt hy (lastBit_eq hy hq hyhi hbinade) hhalf
  · -- The value fell below the first number of its binade, where numbers lie twice as close.
    obtain ⟨hq', hylo⟩ := not_or.mp hbinade
    rw [not_le, h52] at hylo
    have hle : 2 ^ 52 ≤ sig := hnormal.resolve_left hq'
    obtain rfl : sig = 2 ^ 52 := by
      refine Nat.le_antisymm ?_ hle
      by_contra hgt
      have hgt' : (2 : ℚ) ^ 52 + 1 ≤ sig := by exact_mod_cast Nat.lt_of_not_le hgt
      nlinarith
    have hprev : (2 : ℚ) ^ q = 2 * 2 ^ (q - 1) := by
      rw [← zpow_one_add₀ (by norm_num)]
      congr 1
      ring
    have hpow' : (0 : ℚ) < 2 ^ (q - 1) := by positivity
    have hlast : lastBit y = q - 1 := by
      apply lastBit_eq hy (by omega)
      · rw [show q - 1 + 53 = q + 52 by ring, h52]
        exact hylo
      · right
        have h51 : (2 : ℚ) ^ (q - 1 + 52) = 2 ^ 52 * 2 ^ (q - 1) := by
          rw [zpow_add₀ (by norm_num), mul_comm]
          norm_cast
        push_cast at hlo
        rw [h51]
        nlinarith
    have hquarter : |y - (2 ^ 53 : Nat) * 2 ^ (q - 1)| < 2 ^ (q - 1) / 2 := by
      have hsame : ((2 ^ 53 : Nat) : ℚ) * 2 ^ (q - 1) = (2 ^ 52 : Nat) * 2 ^ q := by
        rw [hprev]
        push_cast
        ring
      rw [hsame]
      push_cast at hclose ⊢
      nlinarith
    rw [ofRatio_eq_of_abs_lt hy hlast hquarter]
    omega

theorem lt_of_ofRatio_lt {x : ℚ} (hx : 0 < x) (h : ofRatio x < infinity) : x < 2 ^ (1025 : ℤ) := by
  by_contra hge
  have hlog : 1025 ≤ Int.log 2 x :=
    (Int.zpow_le_iff_le_log (by omega) hx).mp (by exact_mod_cast not_lt.mp hge)
  have hinf : infinity = 2047 * 2 ^ 52 := by decide
  have hlast : 973 ≤ lastBit x := by
    unfold lastBit
    omega
  rw [ofRatio, if_neg hx.ne'] at h
  omega

theorem le_of_ofRatio_pos {x : ℚ} (hx : 0 < x) (h : 0 < ofRatio x) : 2 ^ (-1075 : ℤ) ≤ x := by
  by_contra hlt
  rw [not_le] at hlt
  have hsmall : (2 : ℚ) ^ (-1075 : ℤ) = 2 ^ (-1074 : ℤ) / 2 := by
    rw [show (-1075 : ℤ) = -1074 - 1 by norm_num, zpow_sub₀ (by norm_num), zpow_one]
  have hlast : lastBit x = -1074 := by
    refine lastBit_eq hx le_rfl (hlt.trans_le ?_) (Or.inl rfl)
    exact zpow_le_zpow_right₀ (by norm_num) (by norm_num)
  have hzero : |x - (0 : Nat) * 2 ^ (-1074 : ℤ)| < 2 ^ (-1074 : ℤ) / 2 := by
    rw [Nat.cast_zero, zero_mul, sub_zero, abs_of_pos hx, ← hsmall]
    exact hlt
  rw [ofRatio_eq_of_abs_lt hx hlast hzero] at h
  norm_num at h

/-! Magnitudes -/

/-- The value of a finite magnitude. -/
def value (mag : Nat) : ℚ := significand mag * 2 ^ exponent mag

theorem significand_lt (mag : Nat) : significand mag < 2 ^ 53 := by
  unfold significand
  rw [Nat.one_shiftLeft]
  split <;> omega

theorem significand_pos {mag : Nat} (h : 0 < mag) : 0 < significand mag := by
  unfold significand
  rw [Nat.one_shiftLeft]
  split <;> omega

theorem exponent_bounds (mag : Nat) : -1074 ≤ exponent mag := by
  unfold exponent
  rw [Nat.one_shiftLeft, Nat.shiftRight_eq_div_pow]
  split <;> omega

theorem exponent_eq_or_le_significand (mag : Nat) :
    exponent mag = -1074 ∨ 2 ^ 52 ≤ significand mag := by
  unfold exponent significand
  rw [Nat.one_shiftLeft]
  split <;> omega

theorem exponent_significand (mag : Nat) :
    (exponent mag + 1074).toNat * 2 ^ 52 + significand mag = mag := by
  unfold exponent significand
  rw [Nat.one_shiftLeft, Nat.shiftRight_eq_div_pow]
  split <;> omega

theorem exponent_le {mag : Nat} (h : mag < infinity) : exponent mag ≤ 971 := by
  have hinf : infinity = 2047 * 2 ^ 52 := by decide
  unfold exponent
  rw [Nat.one_shiftLeft, Nat.shiftRight_eq_div_pow]
  split <;> omega

theorem value_pos {mag : Nat} (h : 0 < mag) : 0 < value mag := by
  have hsig : (0 : ℚ) < significand mag := by exact_mod_cast significand_pos h
  unfold value
  positivity

theorem ofRatio_eq_of_close_value {mag : Nat} (hpos : 0 < mag) {y : ℚ}
    (hclose : |y - value mag| * (2 * 10 ^ 16) ≤ value mag) : ofRatio y = mag := by
  rw [ofRatio_eq_of_close (exponent_bounds mag) (significand_pos hpos) (significand_lt mag)
    (exponent_eq_or_le_significand mag) hclose, exponent_significand]

theorem log_value_bounds {mag : Nat} (hpos : 0 < mag) (hfin : mag < infinity) :
    -1074 ≤ Int.log 2 (value mag) ∧ Int.log 2 (value mag) ≤ 1023 := by
  have hval := value_pos hpos
  have hone : (1 : ℚ) ≤ significand mag := by exact_mod_cast significand_pos hpos
  have hsig : (significand mag : ℚ) < 2 ^ 53 := by exact_mod_cast significand_lt mag
  constructor
  · apply (Int.zpow_le_iff_le_log (by omega) hval).mp
    calc ((2 : Nat) : ℚ) ^ (-1074 : ℤ) ≤ 2 ^ exponent mag :=
          zpow_le_zpow_right₀ (by norm_num) (exponent_bounds mag)
      _ ≤ value mag := le_mul_of_one_le_left (by positivity) hone
  · have hlt : Int.log 2 (value mag) < 1024 := by
      apply (Int.lt_zpow_iff_log_lt (by omega) hval).mp
      calc value mag < 2 ^ 53 * 2 ^ exponent mag := by unfold value; gcongr
        _ ≤ 2 ^ 53 * 2 ^ (971 : ℤ) := by
          gcongr
          · norm_num
          · exact exponent_le hfin
        _ = ((2 : Nat) : ℚ) ^ (1024 : ℤ) := by
          rw [← zpow_natCast, ← zpow_add₀ (by norm_num)]
          norm_num
    omega

end TypeFlow.Number.Binary64
