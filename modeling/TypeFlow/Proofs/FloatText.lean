import Mathlib.Data.List.TakeWhile
import TypeFlow.Number.Real
import TypeFlow.Proofs.Numeral
import TypeFlow.Proofs.SeventeenDigits

/-! The text of a 64-bit float reads back as its bits, unless the bits are not a number. -/

namespace TypeFlow.Number

open Text Binary64

theorem isDigit_of_digit? {c : UInt8} {d : Nat} (hc : digit? c = some d) (hd : d < 10) :
    isDigit c = true ∧ c.toNat - 48 = d := by
  have hbyte : ∀ c, (digit? c).any (· < 10) = true →
      isDigit c = true ∧ digit? c = some (c.toNat - 48) := by
    apply forall_byte
    decide +kernel
  have hany : (digit? c).any (· < 10) = true := by simpa [hc] using hd
  obtain ⟨hdigit, hval⟩ := hbyte c hany
  rw [hc] at hval
  exact ⟨hdigit, (Option.some.inj hval).symm⟩

theorem AllDigits.isDigit {t : Text} (ht : AllDigits 10 t) {c : UInt8} (hc : c ∈ t) :
    isDigit c = true := by
  obtain ⟨d, hd, hcd⟩ := ht c hc
  exact (isDigit_of_digit? hcd hd).1

namespace Real

/-- A mantissa with more digits read. -/
def Mantissa.after (m : Mantissa) (t : Text) : Mantissa where
  value := valueFrom 10 m.value t
  places := if m.sawPoint then m.places + t.length else m.places
  sawPoint := m.sawPoint
  sawDigits := m.sawDigits || !t.isEmpty

theorem readMantissa_digits {t : Text} (ht : AllDigits 10 t) (m : Mantissa) (rest : Text) :
    readMantissa 10 m (t ++ rest) = readMantissa 10 (m.after t) rest := by
  induction t generalizing m with
  | nil =>
    have hsame : m.after [] = m := by
      cases m
      simp [Mantissa.after, valueFrom]
    rw [hsame, List.nil_append]
  | cons c t ih =>
    obtain ⟨d, hd, hcd⟩ := ht c List.mem_cons_self
    have hsep : c ≠ ascii '_' := ne_of_mem_of_not_mem List.mem_cons_self (ht.not_mem (by decide))
    have hpoint : c ≠ ascii '.' := ne_of_mem_of_not_mem List.mem_cons_self (ht.not_mem (by decide))
    have hstep : readMantissa 10 m (c :: t ++ rest) = readMantissa 10
        { m with
          value := m.value * 10 + d
          places := if m.sawPoint then m.places + 1 else m.places
          sawDigits := true } (t ++ rest) := by
      simp only [List.cons_append, readMantissa, if_neg hsep, if_neg hpoint, hcd, if_pos hd]
    rw [hstep, ih (ht.of_subset (List.subset_cons_self c t))]
    congr 1
    cases hm : m.sawPoint <;>
      simp [Mantissa.after, hm, valueFrom, hcd, Nat.add_assoc, Nat.add_comm 1]

theorem readMantissa_point {m : Mantissa} (hm : m.sawPoint = false) (rest : Text) :
    readMantissa 10 m (ascii '.' :: rest) = readMantissa 10 { m with sawPoint := true } rest := by
  have hsep : ascii '.' ≠ ascii '_' := by decide
  simp [readMantissa, hsep, hm]

theorem readExponent_digits {t : Text} (ht : AllDigits 10 t) {e : Nat}
    (hmax : valueFrom 10 e t < 100000) : readExponent e t = (valueFrom 10 e t, []) := by
  induction t generalizing e with
  | nil => rfl
  | cons c t ih =>
    obtain ⟨d, hd, hcd⟩ := ht c List.mem_cons_self
    have hsep : c ≠ ascii '_' := ne_of_mem_of_not_mem List.mem_cons_self (ht.not_mem (by decide))
    obtain ⟨hdigit, hval⟩ := isDigit_of_digit? hcd hd
    have hcons : valueFrom 10 e (c :: t) = valueFrom 10 (e * 10 + d) t := by simp [valueFrom, hcd]
    rw [hcons] at hmax ⊢
    have hle := le_valueFrom (by omega : 0 < 10) (e * 10 + d) t
    simp only [readExponent, if_neg hsep, hdigit, if_true, if_pos (show e < 10000 by omega), hval]
    exact ih (ht.of_subset (List.subset_cons_self c t)) hmax

/-- A text that ends a mantissa and gives the exponent `e`. -/
structure IsExponent (e : Int) (t : Text) : Prop where
  stops : ∀ m, readMantissa 10 m t = (m, t)
  exponent : exponent? (ascii 'e') false t = some (e, [])

theorem isExponent_nil : IsExponent 0 [] := ⟨fun _ => rfl, rfl⟩

theorem isExponent_exponentText {e : Int} (he : e.natAbs < 100000) :
    IsExponent e (Shortest.exponentText e) := by
  have hdigits : AllDigits 10 (padLeft (ascii '0') 2 (ofNat e.natAbs)) :=
    (allDigits_replicate_zero (by omega) _).append (allDigits_ofNat _)
  have hvalue : valueFrom 10 0 (padLeft (ascii '0') 2 (ofNat e.natAbs)) = e.natAbs := by
    rw [padLeft, valueFrom_append, valueFrom_replicate_zero, valueFrom_ofNat]
  have hread := readExponent_digits hdigits (hvalue ▸ he)
  rw [hvalue] at hread
  obtain ⟨c, t, hct⟩ : ∃ c t, padLeft (ascii '0') 2 (ofNat e.natAbs) = c :: t := by
    apply List.exists_cons_of_ne_nil
    simp [padLeft, ofNat, numeral_ne_nil]
  have hc : isDigit c = true := hdigits.isDigit (hct ▸ List.mem_cons_self)
  have hmark : lower (ascii 'e') = ascii 'e' := by decide
  have htext : Shortest.exponentText e
      = ascii 'e' :: (if e < 0 then ascii '-' else ascii '+') :: c :: t := by
    rw [← hct]
    unfold Shortest.exponentText
    split <;> rfl
  rw [hct] at hread
  constructor
  · intro m
    have h14 : digit? (ascii 'e') = some 14 := by decide
    have hsep : ascii 'e' ≠ ascii '_' := by decide
    have hpoint : ascii 'e' ≠ ascii '.' := by decide
    simp [htext, readMantissa, hsep, hpoint, h14]
  · have hdrop : dropSign ((if e < 0 then ascii '-' else ascii '+') :: c :: t) = c :: t := by
      split <;> simp [dropSign]
    have hhead : (some c).any isDigit = true := hc
    rw [htext]
    simp only [exponent?, hmark, if_true, signedExponent?, hdrop, hread, List.head?_cons,
      hhead]
    rcases lt_or_ge e 0 with hneg | hpos
    · have hsign : -(e.natAbs : Int) = e := by omega
      simp only [if_pos hneg, beq_self_eq_true, if_true, hsign]
    · have hsign : (e.natAbs : Int) = e := by omega
      have hplus : (some (ascii '+') == some (ascii '-')) = false := by decide
      simp only [if_neg (not_lt.mpr hpos), hplus, Bool.false_eq_true, if_false, hsign]

/-- The bytes that stand in the text of a finite float. -/
def isFloatByte (c : UInt8) : Bool :=
  isDigit c || c == ascii '.' || c == ascii 'e' || c == ascii '+' || c == ascii '-'

/-- Texts of decimals of the value `x`: digits, a point with digits behind it, and an exponent. -/
inductive IsDecimal (x : ℚ) : Text → Prop
  | parts {whole frac expo : Text} {e : Int} (hw : AllDigits 10 whole) (hne : whole ≠ [])
      (hf : AllDigits 10 frac) (he : IsExponent e expo) (hbytes : ∀ c ∈ expo, isFloatByte c = true)
      (hx : valueFrom 10 0 (whole ++ frac) * 10 ^ (e - frac.length) = x) :
      IsDecimal x (whole ++ Shortest.fractionText frac ++ expo)

theorem AllDigits.isFloatByte {t : Text} (ht : AllDigits 10 t) {c : UInt8} (hc : c ∈ t) :
    Real.isFloatByte c = true := by
  simp [Real.isFloatByte, ht.isDigit hc]

namespace IsDecimal

variable {x : ℚ} {t : Text}

theorem isFloatByte (h : IsDecimal x t) {c : UInt8} (hc : c ∈ t) : Real.isFloatByte c = true := by
  cases h with
  | parts hw _ hf _ hbytes _ =>
    simp only [List.mem_append] at hc
    rcases hc with (hc | hc) | hc
    · exact AllDigits.isFloatByte hw hc
    · unfold Shortest.fractionText at hc
      split at hc
      · cases hc
      · rcases List.mem_append.mp hc with hc | hc
        · obtain rfl : c = ascii '.' := List.mem_singleton.mp hc
          decide
        · exact AllDigits.isFloatByte hf hc
    · exact hbytes c hc

theorem exists_cons (h : IsDecimal x t) : ∃ c rest, t = c :: rest ∧ isDigit c = true := by
  cases h with
  | parts hw hne _ _ _ _ =>
    obtain ⟨c, rest, rfl⟩ := List.exists_cons_of_ne_nil hne
    exact ⟨c, _, rfl, hw.isDigit List.mem_cons_self⟩

theorem decimal? (h : IsDecimal x t) :
    magnitude?.decimal? ⟨0, 0, false, false⟩ t = some (ofRatio x) := by
  cases h with
  | @parts whole frac expo e hw hne hf he _ hx =>
    have hread : ∃ point, readMantissa 10 ⟨0, 0, false, false⟩
        (whole ++ Shortest.fractionText frac ++ expo)
        = (⟨valueFrom 10 0 (whole ++ frac), frac.length, point, true⟩, expo) := by
      have hstart : Mantissa.after ⟨0, 0, false, false⟩ whole
          = ⟨valueFrom 10 0 whole, 0, false, true⟩ := by
        simp [Mantissa.after, hne]
      rw [List.append_assoc, readMantissa_digits hw, hstart]
      by_cases hfrac : frac = []
      · subst hfrac
        refine ⟨false, ?_⟩
        simp [Shortest.fractionText, he.stops]
      · have htext : Shortest.fractionText frac = ascii '.' :: frac := by
          rw [Shortest.fractionText, if_neg (by simpa using hfrac)]
          rfl
        refine ⟨true, ?_⟩
        rw [htext, List.cons_append, readMantissa_point rfl, readMantissa_digits hf, he.stops]
        simp [Mantissa.after, valueFrom_append]
    obtain ⟨point, hread⟩ := hread
    generalize valueFrom 10 0 (whole ++ frac) = n at hread hx
    have hscale := fun y => ofScaled_eq_ofRatio (show 0 < 10 by decide) n y
    rw [Nat.cast_ofNat] at hscale
    simp only [magnitude?.decimal?, hread, if_true, he.exponent, hscale, hx]

theorem magnitude? (h : IsDecimal x t) : Real.magnitude? t = some (ofRatio x) := by
  have hbyte : ∀ c, Real.isFloatByte c = true → lower c ≠ ascii 'x' := by
    apply forall_byte
    decide +kernel
  unfold Real.magnitude?
  split
  case h_1 y c rest =>
    simp only [if_neg (hbyte y (h.isFloatByte (by simp)))]
    exact h.decimal?
  case h_2 => exact h.decimal?

end IsDecimal

end Real

namespace Shortest

theorem eq_significantDigits_append (t : Text) :
    ∃ k, t = significantDigits t ++ List.replicate k (ascii '0') := by
  have hsplit := List.takeWhile_append_dropWhile (p := (· == ascii '0')) (l := t.reverse)
  have hzeros : t.reverse.takeWhile (· == ascii '0')
      = List.replicate (t.reverse.takeWhile (· == ascii '0')).length (ascii '0') := by
    refine List.eq_replicate_of_mem fun c hc => ?_
    simpa using List.mem_takeWhile_imp hc
  refine ⟨(t.reverse.takeWhile (· == ascii '0')).length, ?_⟩
  rw [significantDigits, ← List.reverse_replicate, ← hzeros, ← List.reverse_append, hsplit,
    List.reverse_reverse]

/-- The exponent of the first digit of a decimal. -/
def Decimal.leading (d : Decimal) : Int := d.exponent + (ofNat d.digits).length - 1

theorem Decimal.value_bounds {d : Decimal} (hd : 0 < d.digits) :
    (10 : ℚ) ^ d.leading ≤ d.value ∧ d.value < 10 ^ (d.leading + 1) := by
  have hlen : 0 < (ofNat d.digits).length := List.length_pos_iff.mpr (numeral_ne_nil 10 d.digits)
  have hlo : (10 : ℚ) ^ ((ofNat d.digits).length - 1) ≤ d.digits := by
    exact_mod_cast pow_length_numeral_le (by omega) hd
  have hhi : (d.digits : ℚ) < 10 ^ (ofNat d.digits).length := by
    exact_mod_cast lt_pow_length_numeral (by omega) d.digits
  have hfirst : (10 : ℚ) ^ d.leading = 10 ^ ((ofNat d.digits).length - 1) * 10 ^ d.exponent := by
    rw [← zpow_natCast, ← zpow_add₀ (by norm_num), Decimal.leading]
    congr 1
    omega
  have hnext : (10 : ℚ) ^ (d.leading + 1) = 10 ^ (ofNat d.digits).length * 10 ^ d.exponent := by
    rw [← zpow_natCast, ← zpow_add₀ (by norm_num), Decimal.leading]
    congr 1
    omega
  rw [hfirst, hnext, Decimal.value]
  constructor <;> gcongr

theorem Decimal.leading_bounds {d : Decimal} {mag : Nat} (hback : decimalReadsBack mag d = true)
    (hpos : 0 < mag) (hfin : mag < infinity) : d.leading.natAbs < 100000 := by
  obtain ⟨hdigits, hround⟩ := decimalReadsBack_iff.mp hback
  obtain ⟨hlo, hhi⟩ := Decimal.value_bounds hdigits
  have hval : 0 < d.value := lt_of_lt_of_le (by positivity) hlo
  have hupper : (10 : ℚ) ^ d.leading < 10 ^ (1025 : ℤ) :=
    calc (10 : ℚ) ^ d.leading ≤ d.value := hlo
      _ < 2 ^ (1025 : ℤ) := lt_of_ofRatio_lt hval (hround ▸ hfin)
      _ ≤ 10 ^ (1025 : ℤ) := two_zpow_le_ten_zpow (by norm_num) (by norm_num)
  have hlower : (10 : ℚ) ^ (-1075 : ℤ) < 10 ^ (d.leading + 1) :=
    calc (10 : ℚ) ^ (-1075 : ℤ) ≤ 2 ^ (-1075 : ℤ) := by
          rw [zpow_neg, zpow_neg]
          exact inv_anti₀ (by positivity) (two_zpow_le_ten_zpow (by norm_num) (by norm_num))
      _ ≤ d.value := le_of_ofRatio_pos hval (hround ▸ hpos)
      _ < 10 ^ (d.leading + 1) := hhi
  have h1 := (zpow_lt_zpow_iff_right₀ (by norm_num)).mp hupper
  have h2 := (zpow_lt_zpow_iff_right₀ (by norm_num)).mp hlower
  omega

theorem Decimal.value_eq {d : Decimal} :
    d.value = valueFrom 10 0 (significantDigits (ofNat d.digits))
      * 10 ^ (d.leading + 1 - (significantDigits (ofNat d.digits)).length) := by
  obtain ⟨k, hk⟩ := eq_significantDigits_append (ofNat d.digits)
  have hlen := congrArg List.length hk
  rw [List.length_append, List.length_replicate] at hlen
  have hvalue := valueFrom_ofNat d.digits
  rw [hk, valueFrom_append, valueFrom_eq, valueFrom_replicate_zero, List.length_replicate,
    Nat.add_zero] at hvalue
  have hshift : d.leading + 1 - (significantDigits (ofNat d.digits)).length = k + d.exponent := by
    rw [Decimal.leading, hlen]
    push_cast
    ring
  have hcast : (d.digits : ℚ) = valueFrom 10 0 (significantDigits (ofNat d.digits)) * 10 ^ k := by
    exact_mod_cast hvalue.symm
  rw [hshift, zpow_add₀ (by norm_num), zpow_natCast, ← mul_assoc, ← hcast, Decimal.value]

/-- Digits written so that the first of them has the exponent `e`. -/
def layout (digits : Text) (e : Int) : Text :=
  if e < -4 || 6 ≤ e then digits.take 1 ++ fractionText (digits.drop 1) ++ exponentText e
  else if e < 0 then "0." ++ List.replicate (-e - 1).toNat (ascii '0') ++ digits
  else
    digits.take (e.toNat + 1)
      ++ List.replicate (e.toNat + 1 - (digits.take (e.toNat + 1)).length) (ascii '0')
      ++ fractionText (digits.drop (e.toNat + 1))

theorem format_eq_layout (d : Decimal) :
    format d = layout (significantDigits (ofNat d.digits)) d.leading := rfl

theorem exponentText_isFloatByte {e : Int} {c : UInt8} (hc : c ∈ exponentText e) :
    Real.isFloatByte c = true := by
  have hdigits : AllDigits 10 (padLeft (ascii '0') 2 (ofNat e.natAbs)) :=
    (allDigits_replicate_zero (by omega) _).append (allDigits_ofNat _)
  have hmarks : ∀ c ∈ ofString "e" ++ (if e < 0 then ofString "-" else ofString "+"),
      Real.isFloatByte c = true :=
    List.all_eq_true.mp (by split <;> decide)
  rcases List.mem_append.mp hc with hc | hc
  · exact hmarks c hc
  · exact Real.AllDigits.isFloatByte hdigits hc

theorem isDecimal_layout {digits : Text} (hdigits : AllDigits 10 digits) (hne : digits ≠ [])
    {e : Int} (he : e.natAbs < 100000) :
    Real.IsDecimal (valueFrom 10 0 digits * 10 ^ (e + 1 - digits.length)) (layout digits e) := by
  have hlen : 0 < digits.length := List.length_pos_iff.mpr hne
  have htake : ∀ n, AllDigits 10 (digits.take n) :=
    fun n => hdigits.of_subset (List.take_subset n digits)
  have hdrop : ∀ n, AllDigits 10 (digits.drop n) :=
    fun n => hdigits.of_subset (List.drop_subset n digits)
  have hzeros : ∀ n, AllDigits 10 (List.replicate n (ascii '0')) :=
    fun n => allDigits_replicate_zero (by omega) n
  unfold layout
  split
  · -- One digit before the point, and the exponent written out.
    refine .parts (htake 1) ?_ (hdrop 1) (Real.isExponent_exponentText he)
      (fun c hc => exponentText_isFloatByte hc) ?_
    · simpa using hne
    · rw [List.take_append_drop, List.length_drop]
      congr 2
      omega
  · split
    case isTrue hneg =>
      -- Zeros before the first digit.
      have hfrac : AllDigits 10 (List.replicate (-e - 1).toNat (ascii '0') ++ digits) :=
        (hzeros _).append hdigits
      have htext : ofString "0." ++ List.replicate (-e - 1).toNat (ascii '0') ++ digits
          = [ascii '0'] ++ fractionText (List.replicate (-e - 1).toNat (ascii '0') ++ digits)
            ++ [] := by
        rw [fractionText, if_neg (by simp [hne]), List.append_nil]
        simp only [List.append_assoc]
        rfl
      rw [htext]
      refine .parts (hzeros 1) (by simp) hfrac Real.isExponent_nil (by simp) ?_
      rw [← List.append_assoc, valueFrom_append, ← List.replicate_one,
        List.replicate_append_replicate, valueFrom_replicate_zero, List.length_append,
        List.length_replicate]
      congr 2
      omega
    case isFalse hpos =>
      -- Zeros behind the last digit, if there are too few of them.
      have htext := (List.append_nil (digits.take (e.toNat + 1)
        ++ List.replicate (e.toNat + 1 - (digits.take (e.toNat + 1)).length) (ascii '0')
        ++ fractionText (digits.drop (e.toNat + 1)))).symm
      rw [htext]
      refine .parts ((htake _).append (hzeros _)) (by simp [hne]) (hdrop _) Real.isExponent_nil
        (by simp) ?_
      rcases Nat.le_total digits.length (e.toNat + 1) with hle | hge
      · rw [List.drop_eq_nil_of_le hle, List.take_of_length_le hle, List.append_nil,
          valueFrom_append, valueFrom_eq, valueFrom_replicate_zero, List.length_replicate,
          Nat.add_zero, Nat.cast_mul, Nat.cast_pow, List.length_nil, mul_assoc,
          Nat.cast_ofNat, ← zpow_natCast, ← zpow_add₀ (by norm_num)]
        congr 2
        omega
      · rw [List.length_take, Nat.min_eq_left hge, Nat.sub_self, List.replicate_zero,
          List.append_nil, List.take_append_drop, List.length_drop]
        congr 2
        omega

theorem isDecimal_format {d : Decimal} {mag : Nat} (hback : decimalReadsBack mag d = true)
    (hpos : 0 < mag) (hfin : mag < infinity) : Real.IsDecimal d.value (format d) := by
  obtain ⟨hdigits, -⟩ := decimalReadsBack_iff.mp hback
  have hne : significantDigits (ofNat d.digits) ≠ [] := by
    intro hnil
    have hval : 0 < d.value := by
      have hd : (0 : ℚ) < d.digits := by exact_mod_cast hdigits
      unfold Decimal.value
      positivity
    rw [Decimal.value_eq, hnil] at hval
    simp [valueFrom] at hval
  obtain ⟨k, hk⟩ := eq_significantDigits_append (ofNat d.digits)
  have hsub : significantDigits (ofNat d.digits) ⊆ ofNat d.digits := by
    conv_rhs => rw [hk]
    exact List.subset_append_left _ _
  rw [format_eq_layout, Decimal.value_eq]
  exact isDecimal_layout ((allDigits_ofNat d.digits).of_subset hsub) hne
    (Decimal.leading_bounds hback hpos hfin)

end Shortest

/-! Signs and names -/

theorem readFloat_eq_ok {t : Text} {mag : Nat} {c : UInt8} {rest : Text}
    (hdrop : dropSign t = c :: rest) (hc : isDigit c = true) (hsep : ascii '_' ∉ t)
    (hmag : Real.magnitude? (c :: rest) = some mag) (hfin : mag < infinity) :
    readFloat t
      = .ok ((if t.head? == some (ascii '-') then 1 <<< 63 else 0) + mag).toUInt64 := by
  have hbyte : ∀ c, isDigit c = true → isLetter c = false ∧ c ≠ ascii 'i' ∧ c ≠ ascii 'n' := by
    apply forall_byte
    decide +kernel
  obtain ⟨hletter, hi, hn⟩ := hbyte c hc
  have hname : ((c :: rest).map fun c => if isLetter c then lower c else c)
      = c :: rest.map fun c => if isLetter c then lower c else c := by
    simp [hletter]
  generalize rest.map (fun c => if isLetter c then lower c else c) = small at hname
  have hinf : Real.isInfinity (c :: small) = false := by
    have hshort : c :: small ≠ ofString "inf" := fun h => hi (List.cons.inj h).1
    have hlong : c :: small ≠ ofString "infinity" := fun h => hi (List.cons.inj h).1
    simp [Real.isInfinity, hshort, hlong]
  have hnan : c :: small ≠ ofString "nan" := fun h => hn (List.cons.inj h).1
  simp only [readFloat, hdrop, hname, hinf, hmag, if_neg (Nat.not_le.mpr hfin)]
  simp [hnan, hsep]

theorem readFloat_decimal {x : ℚ} {t : Text} (ht : Real.IsDecimal x t) {mag : Nat}
    (hmag : ofRatio x = mag) (hfin : mag < infinity) (negative : Bool) :
    readFloat ((if negative then ofString "-" else ofString "") ++ t)
      = .ok ((if negative then 1 <<< 63 else 0) + mag).toUInt64 := by
  have hsep : ascii '_' ∉ t := by
    intro hc
    have hfloat := ht.isFloatByte hc
    exact absurd hfloat (by decide)
  have hread := ht.magnitude?
  rw [hmag] at hread
  obtain ⟨c, rest, rfl, hc⟩ := ht.exists_cons
  have hbyte : ∀ c, isDigit c = true → c ≠ ascii '-' ∧ c ≠ ascii '+' := by
    apply forall_byte
    decide +kernel
  obtain ⟨hminus, hplus⟩ := hbyte c hc
  cases negative with
  | false =>
    have hhead : ((c :: rest).head? == some (ascii '-')) = false := by simpa using hminus
    have hdrop : dropSign (c :: rest) = c :: rest := by simp [dropSign, hminus, hplus]
    have hok := readFloat_eq_ok hdrop hc hsep hread hfin
    rw [hhead] at hok
    exact hok
  | true =>
    have hsep' : ascii '_' ∉ ascii '-' :: c :: rest :=
      List.not_mem_cons_of_ne_of_not_mem (by decide) hsep
    have hdrop : dropSign (ascii '-' :: c :: rest) = c :: rest := by simp [dropSign]
    exact readFloat_eq_ok hdrop hc hsep' hread hfin

theorem isDecimal_zero : Real.IsDecimal 0 (ofString "0") := by
  have hdigits : AllDigits 10 [ascii '0'] := allDigits_replicate_zero (by omega) 1
  have hnil : AllDigits 10 [] := fun _ hc => absurd hc List.not_mem_nil
  have hvalue : valueFrom 10 0 [ascii '0'] = 0 := by decide
  exact .parts hdigits (by simp) hnil Real.isExponent_nil (by simp) (by simp [hvalue])

theorem sign_add_magnitude (bits : UInt64) :
    ((if isNegative bits then 1 <<< 63 else 0) + magnitude bits).toUInt64 = bits := by
  have hsum : (if isNegative bits then 1 <<< 63 else 0) + magnitude bits = bits.toNat := by
    have hlt : bits.toNat < 2 ^ 64 := bits.toNat_lt
    simp only [isNegative, magnitude, Nat.one_shiftLeft, decide_eq_true_eq]
    split <;> omega
  rw [hsum]
  exact UInt64.ofNat_toNat

/-- The text of every float that is a number reads back as the same bits. -/
theorem readFloat_floatText {bits : UInt64} (h : magnitude bits ≤ infinity) :
    readFloat (floatText bits) = .ok bits := by
  have hbits := sign_add_magnitude bits
  unfold floatText
  simp only [if_neg (Nat.not_lt.mpr h)]
  rcases Nat.lt_or_eq_of_le h with hfin | hinf
  · rw [if_neg hfin.ne]
    by_cases hzero : magnitude bits = 0
    · have hround : ofRatio 0 = magnitude bits := by rw [hzero, ofRatio, if_pos rfl]
      rw [if_pos hzero, readFloat_decimal isDecimal_zero hround hfin, hbits]
    · have hpos : 0 < magnitude bits := Nat.pos_of_ne_zero hzero
      have hback := Shortest.ofMagnitude_readsBack hpos hfin
      rw [if_neg hzero, readFloat_decimal (Shortest.isDecimal_format hback hpos hfin)
        (Shortest.decimalReadsBack_iff.mp hback).2 hfin, hbits]
  · rw [if_pos hinf]
    rw [hinf] at hbits
    cases hneg : isNegative bits with
    | false =>
      rw [← hbits, hneg]
      decide
    | true =>
      rw [← hbits, hneg]
      decide

end TypeFlow.Number
