import Mathlib.Tactic.IntervalCases
import Mathlib.Tactic.Ring
import TypeFlow.Number.Integer

/-! Numerals of integers read back as the integers they were written for. -/

namespace TypeFlow.Number

open Text

/-- A statement about bytes holds of all of them when it holds of the 256. -/
theorem forall_byte {p : UInt8 → Prop} (h : ∀ n : Fin 256, p (UInt8.ofFin n)) (c : UInt8) : p c :=
  h c.toFin

/-- What digits come to when they are read behind the value `acc`. -/
def valueFrom (base acc : Nat) (t : Text) : Nat :=
  t.foldl (fun n c => n * base + (digit? c).getD 0) acc

def AllDigits (base : Nat) (t : Text) : Prop := ∀ c ∈ t, ∃ d < base, digit? c = some d

theorem valueFrom_append (base acc : Nat) (s t : Text) :
    valueFrom base acc (s ++ t) = valueFrom base (valueFrom base acc s) t := by
  simp [valueFrom]

theorem valueFrom_eq (base acc : Nat) (t : Text) :
    valueFrom base acc t = acc * base ^ t.length + valueFrom base 0 t := by
  induction t generalizing acc with
  | nil => simp [valueFrom]
  | cons c t ih =>
    have hcons : ∀ n, valueFrom base n (c :: t) = valueFrom base (n * base + (digit? c).getD 0) t :=
      fun _ => rfl
    rw [hcons, hcons, ih, ih (0 * base + _), List.length_cons, pow_succ]
    ring

theorem le_valueFrom {base : Nat} (hb : 0 < base) (acc : Nat) (t : Text) :
    acc ≤ valueFrom base acc t := by
  rw [valueFrom_eq]
  have hpow : 0 < base ^ t.length := pow_pos hb _
  have hmul := Nat.le_mul_of_pos_right acc hpow
  omega

theorem valueFrom_replicate_zero (base n : Nat) :
    valueFrom base 0 (List.replicate n (ascii '0')) = 0 := by
  induction n with
  | zero => rfl
  | succ n ih =>
    have hdigit : (digit? (ascii '0')).getD 0 = 0 := by decide
    rw [List.replicate_succ]
    simp only [valueFrom, List.foldl_cons, hdigit, Nat.zero_mul, Nat.zero_add]
    exact ih

theorem AllDigits.append {base : Nat} {s t : Text} (hs : AllDigits base s) (ht : AllDigits base t) :
    AllDigits base (s ++ t) := by
  intro c hc
  rcases List.mem_append.mp hc with hc | hc
  · exact hs c hc
  · exact ht c hc

theorem AllDigits.of_subset {base : Nat} {s t : Text} (h : AllDigits base t) (hst : s ⊆ t) :
    AllDigits base s := fun c hc => h c (hst hc)

theorem AllDigits.not_mem {base : Nat} {t : Text} (h : AllDigits base t) {c : UInt8}
    (hc : digit? c = none) : c ∉ t := by
  intro hm
  obtain ⟨d, -, hd⟩ := h c hm
  rw [hc] at hd
  cases hd

theorem allDigits_replicate_zero {base : Nat} (hb : 0 < base) (n : Nat) :
    AllDigits base (List.replicate n (ascii '0')) := by
  intro c hc
  rw [List.eq_of_mem_replicate hc]
  exact ⟨0, hb, by decide⟩

theorem digit?_digitChar {d : Nat} (hd : d < 16) : digit? (ascii d.digitChar) = some d := by
  interval_cases d <;> decide

/-! Numerals -/

theorem numeral_of_lt {base n : Nat} (h : n < base) : numeral base n = [ascii n.digitChar] := by
  simp [numeral, Nat.toDigits_of_lt_base h]

theorem numeral_of_le {base n : Nat} (hb : 1 < base) (h : base ≤ n) :
    numeral base n = numeral base (n / base) ++ [ascii (n % base).digitChar] := by
  simp [numeral, Nat.toDigits_of_base_le hb h]

theorem numeral_ne_nil (base n : Nat) : numeral base n ≠ [] := by
  simp [numeral, Nat.toDigits_ne_nil]

theorem allDigits_numeral {base : Nat} (hb : 1 < base) (hb' : base ≤ 16) (n : Nat) :
    AllDigits base (numeral base n) := by
  induction n using Nat.strong_induction_on with
  | _ n ih =>
    rcases Nat.lt_or_ge n base with hn | hn
    · intro c hc
      rw [numeral_of_lt hn] at hc
      obtain rfl := List.mem_singleton.mp hc
      exact ⟨n, hn, digit?_digitChar (by omega)⟩
    · rw [numeral_of_le hb hn]
      apply AllDigits.append (ih _ (Nat.div_lt_self (by omega) hb))
      intro c hc
      have hmod : n % base < base := Nat.mod_lt n (by omega)
      obtain rfl := List.mem_singleton.mp hc
      exact ⟨n % base, hmod, digit?_digitChar (by omega)⟩

theorem valueFrom_numeral {base : Nat} (hb : 1 < base) (hb' : base ≤ 16) (n : Nat) :
    valueFrom base 0 (numeral base n) = n := by
  induction n using Nat.strong_induction_on with
  | _ n ih =>
    rcases Nat.lt_or_ge n base with hn | hn
    · rw [numeral_of_lt hn]
      simp [valueFrom, digit?_digitChar (show n < 16 by omega)]
    · have hmod : n % base < base := Nat.mod_lt n (by omega)
      rw [numeral_of_le hb hn, valueFrom_append, ih _ (Nat.div_lt_self (by omega) hb)]
      simp only [valueFrom, List.foldl_cons, List.foldl_nil,
        digit?_digitChar (show n % base < 16 by omega), Option.getD_some]
      exact Nat.div_add_mod' n base

theorem head?_numeral_ne_zero {base : Nat} (hb : 1 < base) (hb' : base ≤ 16) {n : Nat}
    (hn : 0 < n) : (numeral base n).head? ≠ some (ascii '0') := by
  induction n using Nat.strong_induction_on with
  | _ n ih =>
    rcases Nat.lt_or_ge n base with hlt | hge
    · rw [numeral_of_lt hlt]
      have hlt' : n < 16 := by omega
      interval_cases n <;> decide
    · have hpos : 0 < n / base := Nat.div_pos hge (by omega)
      obtain ⟨c, t, ht⟩ := List.exists_cons_of_ne_nil (numeral_ne_nil base (n / base))
      have hrest := ih _ (Nat.div_lt_self hn hb) hpos
      rw [ht] at hrest
      rw [numeral_of_le hb hge, ht]
      exact hrest

theorem lt_pow_length_numeral {base : Nat} (hb : 1 < base) (n : Nat) :
    n < base ^ (numeral base n).length := by
  induction n using Nat.strong_induction_on with
  | _ n ih =>
    rcases Nat.lt_or_ge n base with hlt | hge
    · rw [numeral_of_lt hlt]
      simpa using hlt
    · have hrest := ih _ (Nat.div_lt_self (by omega : 0 < n) hb)
      rw [numeral_of_le hb hge, List.length_append, List.length_singleton, pow_succ]
      exact (Nat.div_lt_iff_lt_mul (by omega)).mp hrest

theorem pow_length_numeral_le {base : Nat} (hb : 1 < base) {n : Nat} (hn : 0 < n) :
    base ^ ((numeral base n).length - 1) ≤ n := by
  induction n using Nat.strong_induction_on with
  | _ n ih =>
    rcases Nat.lt_or_ge n base with hlt | hge
    · rw [numeral_of_lt hlt]
      exact hn
    · have hpos : 0 < n / base := Nat.div_pos hge (by omega)
      have hrest := ih _ (Nat.div_lt_self hn hb) hpos
      have hlen : 0 < (numeral base (n / base)).length :=
        List.length_pos_iff.mpr (numeral_ne_nil _ _)
      obtain ⟨k, hk⟩ : ∃ k, (numeral base (n / base)).length = k + 1 :=
        ⟨_, (Nat.succ_pred hlen.ne').symm⟩
      rw [numeral_of_le hb hge, List.length_append, List.length_singleton, hk]
      rw [hk] at hrest
      simp only [Nat.add_sub_cancel] at hrest ⊢
      rw [pow_succ]
      exact (Nat.le_div_iff_mul_le (by omega)).mp hrest

/-! Reading -/

theorem readDigits_eq_ok {base max acc : Nat} {t : Text} (ht : AllDigits base t)
    (hmax : valueFrom base acc t ≤ max) :
    readDigits base max acc t = .ok (valueFrom base acc t) := by
  induction t generalizing acc with
  | nil => rfl
  | cons c t ih =>
    obtain ⟨d, hd, hc⟩ := ht c List.mem_cons_self
    have hrest : AllDigits base t := ht.of_subset (List.subset_cons_self c t)
    have hne : c ≠ ascii '_' := by
      rintro rfl
      have hnone : digit? (ascii '_') = none := by decide
      rw [hnone] at hc
      cases hc
    have hval : valueFrom base acc (c :: t) = valueFrom base (acc * base + d) t := by
      simp [valueFrom, hc]
    rw [hval] at hmax ⊢
    have hle := (le_valueFrom (by omega) (acc * base + d) t).trans hmax
    simp only [readDigits, if_neg hne, hc, if_neg (Nat.not_le.mpr hd), if_neg (Nat.not_lt.mpr hle)]
    exact ih hrest hmax

theorem base_of_head {c : UInt8} {t : Text} (hc : c ≠ ascii '0') :
    base (c :: t) = (10, c :: t) := by
  have hc : c ≠ 0x30 := hc
  unfold base
  split <;> simp_all

theorem readNat_eq_ok {bits n : Nat} {t : Text} (hne : t ≠ []) (hsep : ascii '_' ∉ t)
    (hdigits : AllDigits (base t).1 (base t).2) (hvalue : valueFrom (base t).1 0 (base t).2 = n)
    (hn : n < 2 ^ bits) : readNat bits t = .ok n := by
  have hmax : valueFrom (base t).1 0 (base t).2 ≤ (1 <<< bits) - 1 := by
    rw [Nat.one_shiftLeft]
    omega
  have hread := readDigits_eq_ok hdigits hmax
  rw [hvalue] at hread
  simp [readNat, hne, hread, hsep]

theorem allDigits_ofNat (n : Nat) : AllDigits 10 (ofNat n) :=
  allDigits_numeral (by omega) (by omega) n

theorem valueFrom_ofNat (n : Nat) : valueFrom 10 0 (ofNat n) = n :=
  valueFrom_numeral (by omega) (by omega) n

theorem readNat_decimal {bits n : Nat} (hn : n < 2 ^ bits) : readNat bits (ofNat n) = .ok n := by
  have hsep : ascii '_' ∉ ofNat n := (allDigits_ofNat n).not_mem (by decide)
  have hne : ofNat n ≠ [] := numeral_ne_nil 10 n
  -- Zero is the one numeral that starts with a zero, and so the one read in base eight.
  rcases Nat.eq_zero_or_pos n with rfl | hpos
  · exact readNat_eq_ok hne hsep (fun c hc => absurd hc (List.not_mem_nil)) rfl hn
  · have hbase : base (ofNat n) = (10, ofNat n) := by
      have hzero : (ofNat n).head? ≠ some (ascii '0') :=
        head?_numeral_ne_zero (by omega) (by omega) hpos
      obtain ⟨c, t, ht⟩ := List.exists_cons_of_ne_nil hne
      rw [ht] at hzero ⊢
      exact base_of_head (by simpa using hzero)
    apply readNat_eq_ok hne hsep _ _ hn <;> rw [hbase]
    · exact allDigits_ofNat n
    · exact valueFrom_ofNat n

theorem readNat_hexadecimal {bits n : Nat} (hn : n < 2 ^ bits) :
    readNat bits (ofString "0x" ++ numeral 16 n) = .ok n := by
  have hdigits : AllDigits 16 (numeral 16 n) := allDigits_numeral (by omega) (by omega) n
  have hsep : ascii '_' ∉ ofString "0x" ++ numeral 16 n := by
    have hmark : ascii '_' ∉ ofString "0x" := by decide
    have hrest := hdigits.not_mem (c := ascii '_') (by decide)
    simp [hmark, hrest]
  have hbase : base (ofString "0x" ++ numeral 16 n) = (16, numeral 16 n) := by
    obtain ⟨c, t, ht⟩ := List.exists_cons_of_ne_nil (numeral_ne_nil 16 n)
    rw [ht]
    rfl
  apply readNat_eq_ok (by simp [numeral_ne_nil]) hsep _ _ hn <;> rw [hbase]
  · exact hdigits
  · exact valueFrom_numeral (by omega) (by omega) n

theorem AllDigits.dropSign_eq {t : Text} (ht : AllDigits 10 t) : dropSign t = t := by
  cases t with
  | nil => rfl
  | cons c t =>
    have hminus : c ≠ ascii '-' := ne_of_mem_of_not_mem List.mem_cons_self (ht.not_mem (by decide))
    have hplus : c ≠ ascii '+' := ne_of_mem_of_not_mem List.mem_cons_self (ht.not_mem (by decide))
    simp [dropSign, hminus, hplus]

theorem AllDigits.head?_ne_minus {t : Text} (ht : AllDigits 10 t) :
    (t.head? == some (ascii '-')) = false := by
  cases t with
  | nil => rfl
  | cons c t =>
    have hminus : c ≠ ascii '-' := ne_of_mem_of_not_mem List.mem_cons_self (ht.not_mem (by decide))
    simpa using hminus

theorem readInt_ofInt {x : Int} (hlo : -2 ^ 31 ≤ x) (hhi : x < 2 ^ 31) :
    readInt 32 (ofInt x) = .ok x := by
  have hshift : 1 <<< (32 - 1) = 2 ^ 31 := by decide
  cases x with
  | ofNat n =>
    have hn : n < 2 ^ 31 := by simpa using hhi
    have hread : readNat 32 (ofNat n) = .ok n := readNat_decimal (by omega)
    have hdigits := allDigits_ofNat n
    simp only [readInt, ofInt, hdigits.dropSign_eq, hdigits.head?_ne_minus, hread, hshift,
      Bool.false_eq_true, if_false, if_neg (Nat.not_le.mpr hn)]
    rfl
  | negSucc n =>
    have hn : n + 1 ≤ 2 ^ 31 := by omega
    have hread : readNat 32 (ofNat (n + 1)) = .ok (n + 1) := readNat_decimal (by omega)
    have hdrop : dropSign (ascii '-' :: ofNat (n + 1)) = ofNat (n + 1) := by simp [dropSign]
    have htext : ofInt (.negSucc n) = ascii '-' :: ofNat (n + 1) := rfl
    simp only [readInt, htext, hdrop, List.head?_cons, beq_self_eq_true, if_true, hread, hshift,
      if_neg (Nat.not_lt.mpr hn)]
    rfl

end TypeFlow.Number
