import TypeFlow.Number.Shortest
import TypeFlow.Proofs.Rounding

/-! The search for a short decimal ends: seventeen digits read back as the magnitude they were
taken from. -/

namespace TypeFlow.Number.Shortest

open Binary64

/-- The value of a decimal. -/
def Decimal.value (d : Decimal) : ℚ := d.digits * 10 ^ d.exponent

theorem decimalReadsBack_iff {mag : Nat} {d : Decimal} :
    decimalReadsBack mag d = true ↔ 0 < d.digits ∧ ofRatio d.value = mag := by
  simp only [decimalReadsBack, Bool.and_eq_true, bne_iff_ne, beq_iff_eq,
    ofScaled_eq_ofRatio (show 0 < 10 by decide), Nat.cast_ofNat, Nat.pos_iff_ne_zero, Decimal.value]

theorem fraction_den_pos (mag : Nat) : 0 < (fraction mag).2 := scale_den_pos two_pos _ one_pos _

theorem fraction_ratio (mag : Nat) : ((fraction mag).1 : ℚ) / (fraction mag).2 = value mag := by
  rw [fraction, scale_ratio, Nat.cast_one, div_one, Nat.cast_ofNat, value]

/-! The decimal exponent -/

theorem ten_zpow_le_two_zpow {k m : ℤ} (hk : 0 ≤ k) (h : 103 * k ≤ 31 * m) :
    (10 : ℚ) ^ k ≤ 2 ^ m := by
  have hpow : ((10 : ℚ) ^ k) ^ 31 ≤ (2 ^ m) ^ 31 :=
    calc ((10 : ℚ) ^ k) ^ 31 = (10 ^ 31) ^ k := by
          rw [← zpow_natCast, ← zpow_natCast, ← zpow_mul, ← zpow_mul, mul_comm]
      _ ≤ (2 ^ 103) ^ k := zpow_le_zpow_left₀ hk (by norm_num) (by norm_num)
      _ = 2 ^ (103 * k) := by rw [← zpow_natCast, ← zpow_mul]; norm_num
      _ ≤ 2 ^ (m * 31) := zpow_le_zpow_right₀ (by norm_num) (by omega)
      _ = (2 ^ m) ^ 31 := by rw [← zpow_natCast, ← zpow_mul]; norm_num
  exact le_of_pow_le_pow_left₀ (by norm_num) (by positivity) hpow

theorem two_zpow_le_ten_zpow {k m : ℤ} (hk : 0 ≤ k) (h : 28 * m ≤ 93 * k) :
    (2 : ℚ) ^ m ≤ 10 ^ k := by
  have hpow : ((2 : ℚ) ^ m) ^ 28 ≤ (10 ^ k) ^ 28 :=
    calc ((2 : ℚ) ^ m) ^ 28 = 2 ^ (m * 28) := by rw [← zpow_natCast, ← zpow_mul]; norm_num
      _ ≤ 2 ^ (93 * k) := zpow_le_zpow_right₀ (by norm_num) (by omega)
      _ = (2 ^ 93) ^ k := by rw [← zpow_natCast, ← zpow_mul]; norm_num
      _ ≤ (10 ^ 28) ^ k := zpow_le_zpow_left₀ hk (by norm_num) (by norm_num)
      _ = (10 ^ k) ^ 28 := by
          rw [← zpow_natCast, ← zpow_natCast, ← zpow_mul, ← zpow_mul, mul_comm]
  exact le_of_pow_le_pow_left₀ (by norm_num) (by positivity) hpow

/-- One below the guess is never too much, for the binary exponents that there are. -/
theorem ten_zpow_guess_le {f : ℤ} (hlo : -1074 ≤ f) (hhi : f ≤ 1023) :
    (10 : ℚ) ^ (f * 30103 / 100000 - 1) ≤ 2 ^ f := by
  rcases le_or_gt 0 (f * 30103 / 100000 - 1) with hg | hg
  · exact ten_zpow_le_two_zpow hg (by omega)
  · have hinv : (2 : ℚ) ^ (-f) ≤ 10 ^ (-(f * 30103 / 100000 - 1)) :=
      two_zpow_le_ten_zpow (by omega) (by omega)
    rw [zpow_neg, zpow_neg] at hinv
    exact (inv_le_inv₀ (by positivity) (by positivity)).mp hinv

theorem ten_zpow_floorLogTen_le {num den : Nat} (hnum : 0 < num) (hden : 0 < den)
    (hlo : -1074 ≤ Int.log 2 ((num : ℚ) / den)) (hhi : Int.log 2 ((num : ℚ) / den) ≤ 1023) :
    (10 : ℚ) ^ floorLogTen num den ≤ num / den := by
  have hx : (0 : ℚ) < num / den := by
    have hn : (0 : ℚ) < num := by exact_mod_cast hnum
    have hd : (0 : ℚ) < den := by exact_mod_cast hden
    positivity
  have hleast : (10 : ℚ) ^ (Int.log 2 ((num : ℚ) / den) * 30103 / 100000 - 1) ≤ num / den :=
    (ten_zpow_guess_le hlo hhi).trans (by exact_mod_cast Int.zpow_log_le_self one_lt_two hx)
  unfold floorLogTen
  simp only [scale_le_iff (show 0 < 10 by decide) num hden, Nat.cast_ofNat, decide_eq_true_eq]
  split
  case isTrue h => exact h
  case isFalse =>
    split
    case isTrue h => exact h
    case isFalse => rwa [floorLog_eq_log hnum hden]

/-! The search -/

theorem ofCount?_readsBack {mag count : Nat} {d : Decimal} (h : ofCount? mag count = some d) :
    decimalReadsBack mag d = true := by
  unfold ofCount? at h
  simp only at h
  split_ifs at h with hn hb ha <;> cases h <;> assumption

theorem ofCount?_seventeen {mag : Nat} (hpos : 0 < mag) (hfin : mag < infinity) :
    ∃ d, ofCount? mag 17 = some d := by
  have hden := fraction_den_pos mag
  have hratio := fraction_ratio mag
  obtain ⟨hlo, hhi⟩ := log_value_bounds hpos hfin
  have hval := value_pos hpos
  have hnum : 0 < (fraction mag).1 := by
    by_contra hz
    obtain hz : (fraction mag).1 = 0 := by omega
    rw [hz, Nat.cast_zero, zero_div] at hratio
    linarith
  -- `s` is the value counted in units of the last of seventeen digits.
  let e : Int := floorLogTen (fraction mag).1 (fraction mag).2 - 16
  let s : ℚ := value mag * 10 ^ (-e)
  have hunit : (10 : ℚ) ^ e * 10 ^ 16 ≤ value mag := by
    have hten := ten_zpow_floorLogTen_le hnum hden (hratio ▸ hlo) (hratio ▸ hhi)
    rw [hratio] at hten
    rw [← zpow_natCast, ← zpow_add₀ (by norm_num)]
    simpa [e] using hten
  have he : (0 : ℚ) < 10 ^ e := by positivity
  have hs : s * 10 ^ e = value mag := by
    simp only [s]
    rw [mul_assoc, ← zpow_add₀ (by norm_num), neg_add_cancel, zpow_zero, mul_one]
  have hnear : |(nearest s : ℚ) - s| ≤ 1 / 2 := abs_nearest_sub_le (by positivity)
  have hdigits : 0 < nearest s := by
    by_contra hz
    obtain hz : nearest s = 0 := by omega
    rw [hz, Nat.cast_zero, zero_sub, abs_neg] at hnear
    have := le_abs_self s
    nlinarith
  have hclose : |(nearest s : ℚ) * 10 ^ e - value mag| * (2 * 10 ^ 16) ≤ value mag := by
    rw [← hs, ← sub_mul, abs_mul, abs_of_pos he, hs]
    nlinarith
  have hback : decimalReadsBack mag ⟨nearest s, e⟩ = true :=
    decimalReadsBack_iff.mpr ⟨hdigits, ofRatio_eq_of_close_value hpos hclose⟩
  refine ⟨⟨nearest s, e⟩, ?_⟩
  have hround : roundDiv (scale 10 (fraction mag).1 (fraction mag).2 (-e)).1
      (scale 10 (fraction mag).1 (fraction mag).2 (-e)).2 = nearest s := by
    rw [roundDiv_eq_nearest _ (scale_den_pos (by decide) _ hden _), scale_ratio, hratio,
      Nat.cast_ofNat]
  have hcount : floorLogTen (fraction mag).1 (fraction mag).2 - ((17 : Nat) - 1) = e := by
    simp only [e]
    omega
  simp only [ofCount?, hcount, hround, hback, if_true]

theorem ofMagnitude_readsBack {mag : Nat} (hpos : 0 < mag) (hfin : mag < infinity) :
    decimalReadsBack mag (ofMagnitude mag) = true := by
  have hsome : ((List.range' 1 17).findSome? (ofCount? mag)).isSome := by
    obtain ⟨d, hd⟩ := ofCount?_seventeen hpos hfin
    rw [List.findSome?_isSome_iff]
    exact ⟨17, by decide, by rw [hd]; rfl⟩
  obtain ⟨d, hd⟩ := Option.isSome_iff_exists.mp hsome
  obtain ⟨count, -, hcount⟩ := List.exists_of_findSome?_eq_some hd
  rw [ofMagnitude, hd]
  exact ofCount?_readsBack hcount

end TypeFlow.Number.Shortest
