import TypeFlow.Proofs.FloatText
import TypeFlow.Proofs.Tokens

/-! The text of a literal that was read reads back as the literal. -/

namespace TypeFlow

theorem Text.cut?_append {sep : UInt8} {s : Text} (hs : sep ∉ s) (t : Text) :
    Text.cut? sep (s ++ sep :: t) = some (s, t) := by
  induction s with
  | nil => simp [Text.cut?]
  | cons c s ih =>
    simp only [List.mem_cons, not_or] at hs
    simp [Text.cut?, Ne.symm hs.1, ih hs.2]

namespace Literal

open Text Number

/-- The literals of which some text is read: those with a type and, where the type is narrower than
64 bits or has many bits for one number, the bits that reading gives. -/
def Canonical (c : Literal) : Prop :=
  match c.type with
  | .void | .unknown _ => False
  | .i32 => c.bits.toNat < 2 ^ 32
  | .f64 => Binary64.magnitude c.bits ≤ Binary64.infinity ∨ c.bits = Binary64.nan
  | .ref | .ptr | .const => True

theorem bits_ofInt_lt (x : Int) : (ofInt x).bits.toNat < 2 ^ 32 := by
  have hlt : (x % 0x100000000).toNat < 2 ^ 32 := by omega
  have hsmall : (x % 0x100000000).toNat < 2 ^ 64 := by omega
  rw [ofInt, Nat.toUInt64_eq, UInt64.toNat_ofNat_of_lt' hsmall]
  exact hlt

theorem magnitude_toUInt64_le {n : Nat} (hn : n ≤ Binary64.infinity) (negative : Bool) :
    Binary64.magnitude ((if negative then 1 <<< 63 else 0) + n).toUInt64 ≤ Binary64.infinity := by
  have hinf : Binary64.infinity < 2 ^ 63 := by decide
  have hlt : (if negative then 1 <<< 63 else 0) + n < 2 ^ 64 := by
    rw [Nat.one_shiftLeft]
    split <;> omega
  rw [Binary64.magnitude, Nat.toUInt64_eq, UInt64.toNat_ofNat_of_lt' hlt, Nat.one_shiftLeft]
  split <;> omega

theorem readFloat_number {t : Text} {bits : UInt64} (h : readFloat t = .ok bits) :
    Binary64.magnitude bits ≤ Binary64.infinity ∨ bits = Binary64.nan := by
  unfold readFloat at h
  simp only at h
  generalize (t.head? == some (ascii '-')) = negative at h
  split at h
  · obtain rfl := Except.ok.inj h
    exact Or.inl (magnitude_toUInt64_le le_rfl negative)
  · split at h
    · exact Or.inr (Except.ok.inj h).symm
    · split at h
      · cases h
      · split at h
        · cases h
        · split at h
          · cases h
          · next hfin =>
            obtain rfl := Except.ok.inj h
            exact Or.inl (magnitude_toUInt64_le (Nat.le_of_not_le hfin) negative)

theorem canonical_of_read {t : Text} {c : Literal} (h : read t = .ok c) : c.Canonical := by
  unfold read at h
  split at h
  · cases h
    trivial
  · split at h
    · cases h
      trivial
    · split at h
      · cases h
      · next type numeral hcut =>
        split at h
        · cases h
        · split at h
          · cases h
          · next hvoid =>
            split at h
            · next bits hbits =>
              cases h
              have hnamed : type ∈ ReprType.named := by
                obtain ⟨p, -, hp⟩ := Option.bind_eq_some_iff.mp hcut
                obtain ⟨_, hfind, he⟩ := Option.map_eq_some_iff.mp hp
                cases he
                exact List.mem_of_find?_eq_some hfind
              cases type with
              | void => exact absurd rfl hvoid
              | unknown code => simp [ReprType.named] at hnamed
              | i32 =>
                obtain ⟨x, -, rfl⟩ : ∃ x, readInt 32 numeral = .ok x ∧ (ofInt x).bits = bits := by
                  cases hx : readInt 32 numeral with
                  | error e => simp [readBits, hx, Except.map] at hbits
                  | ok x => exact ⟨x, rfl, by simpa [readBits, hx, Except.map] using hbits⟩
                exact bits_ofInt_lt x
              | f64 => exact readFloat_number hbits
              | ref => trivial
              | ptr => trivial
              | const => trivial
            · cases h

/-! Reading the text -/

theorem toInt32_bounds (bits : UInt64) :
    -2 ^ 31 ≤ toInt32 bits ∧ toInt32 bits < 2 ^ 31 ∧
      toInt32 bits % 0x100000000 = bits.toNat % 0x100000000 := by
  unfold toInt32
  rw [Int.bmod_def]
  split <;> omega

theorem bits_ofInt_toInt32 {bits : UInt64} (h : bits.toNat < 2 ^ 32) :
    (ofInt (toInt32 bits)).bits = bits := by
  obtain ⟨-, -, hmod⟩ := toInt32_bounds bits
  have hnat : (toInt32 bits % 0x100000000).toNat = bits.toNat := by omega
  rw [ofInt, hnat]
  exact UInt64.ofNat_toNat

theorem readBits_i32 {bits : UInt64} (h : bits.toNat < 2 ^ 32) :
    readBits .i32 (Text.ofInt (toInt32 bits)) = .ok bits := by
  obtain ⟨hlo, hhi, -⟩ := toInt32_bounds bits
  unfold readBits
  rw [readInt_ofInt hlo hhi, Except.map, bits_ofInt_toInt32 h]

theorem readBits_f64 {bits : UInt64}
    (h : Binary64.magnitude bits ≤ Binary64.infinity ∨ bits = Binary64.nan) :
    readBits .f64 (floatText bits) = .ok bits := by
  rcases h with h | rfl
  · exact readFloat_floatText h
  · decide

theorem readBits_hexadecimal {type : ReprType} (hi : type ≠ .i32) (hf : type ≠ .f64)
    (bits : UInt64) :
    readBits type (ofString "0x" ++ numeral 16 bits.toNat) = .ok bits := by
  have hread : readNat 64 (ofString "0x" ++ numeral 16 bits.toNat) = .ok bits.toNat :=
    readNat_hexadecimal bits.toNat_lt
  cases type <;> simp_all [readBits, Except.map]

theorem readBits_decimal {type : ReprType} (hi : type ≠ .i32) (hf : type ≠ .f64) (bits : UInt64) :
    readBits type (ofNat bits.toNat) = .ok bits := by
  have hread : readNat 64 (ofNat bits.toNat) = .ok bits.toNat := readNat_decimal bits.toNat_lt
  cases type <;> simp_all [readBits, Except.map]

theorem ne_nil_of_readBits {type : ReprType} {numeral : Text} {bits : UInt64}
    (h : readBits type numeral = .ok bits) : numeral ≠ [] := by
  rintro rfl
  cases type <;> cases h

theorem read_named {type : ReprType} (htype : type ∈ ReprType.named) (hvoid : type ≠ .void)
    {numeral : Text} {bits : UInt64} (hbits : readBits type numeral = .ok bits) :
    read (type.text ++ ascii ':' :: numeral) = .ok ⟨type, bits⟩ := by
  have hcolon : ∀ type ∈ ReprType.named, ascii ':' ∉ type.text := by decide
  have hname : ∀ type ∈ ReprType.named, ReprType.ofName? type.text = some type := by decide
  have hmem : ascii ':' ∈ type.text ++ ascii ':' :: numeral := by simp
  have htrue : type.text ++ ascii ':' :: numeral ≠ ofString "true" :=
    fun he => absurd (he ▸ hmem) (by decide)
  have hfalse : type.text ++ ascii ':' :: numeral ≠ ofString "false" :=
    fun he => absurd (he ▸ hmem) (by decide)
  simp only [read, if_neg htrue, if_neg hfalse, cut?_append (hcolon type htype),
    Option.bind_some, hname type htype, Option.map_some,
    List.isEmpty_eq_false_iff.mpr (ne_nil_of_readBits hbits), Bool.false_eq_true, if_false,
    if_neg hvoid, hbits]

theorem plain_of_digits {base : Nat} {t : Text} (ht : AllDigits base t) : Token.Plain t := by
  intro c hc
  obtain ⟨d, -, hd⟩ := ht c hc
  exact Token.isBreak_eq_false (p := fun c => (digit? c).isSome) (by decide) (by rw [hd]; rfl)

theorem plain_ofInt (x : Int) : Token.Plain (Text.ofInt x) := by
  cases x with
  | ofNat n => exact plain_of_digits (allDigits_ofNat n)
  | negSucc n =>
    have hsign : Token.Plain [ascii '-'] := by decide
    exact hsign.append (plain_of_digits (allDigits_ofNat (n + 1)))

theorem plain_hexadecimal (n : Nat) : Token.Plain (ofString "0x" ++ numeral 16 n) := by
  have hmark : Token.Plain (ofString "0x") := by decide
  exact hmark.append (plain_of_digits (allDigits_numeral (by omega) (by omega) n))

theorem plain_floatText (bits : UInt64) : Token.Plain (floatText bits) := by
  have hbyte : ∀ c, Real.isFloatByte c = true → Token.isBreak c = false :=
    fun c => Token.isBreak_eq_false (by decide)
  have hsign : Token.Plain (if Binary64.isNegative bits then ofString "-" else ofString "") := by
    split <;> decide
  unfold floatText
  simp only
  split
  · decide
  · next hnan =>
    split
    · split <;> decide
    · next hinf =>
      split
      · exact hsign.append (by decide)
      · next hzero =>
        have hpos : 0 < Binary64.magnitude bits := Nat.pos_of_ne_zero hzero
        have hfin : Binary64.magnitude bits < Binary64.infinity := by omega
        have hback := Shortest.ofMagnitude_readsBack hpos hfin
        have hformat := Shortest.isDecimal_format hback hpos hfin
        exact hsign.append fun c hc => hbyte c (hformat.isFloatByte hc)

/-- The text of a canonical literal that is no boolean. -/
theorem text_eq {c : Literal} (h : c.Canonical) (ht : c ≠ ofBool true) (hf : c ≠ ofBool false) :
    ∃ numeral, c.text = c.type.text ++ ascii ':' :: numeral ∧
      readBits c.type numeral = .ok c.bits ∧ Token.Plain numeral := by
  obtain ⟨type, bits⟩ := c
  unfold Canonical at h
  unfold text
  rw [if_neg ht, if_neg hf]
  cases type with
  | void => exact h.elim
  | unknown code => exact h.elim
  | i32 =>
    have htext : ∀ t : Text, ofString "i32:" ++ t = ReprType.i32.text ++ ascii ':' :: t :=
      fun _ => rfl
    exact ⟨_, htext _, readBits_i32 h, plain_ofInt _⟩
  | f64 => exact ⟨_, rfl, readBits_f64 h, plain_floatText _⟩
  | ref =>
    have hread := readBits_hexadecimal (show ReprType.ref ≠ .i32 by decide) (by decide) bits
    exact ⟨_, rfl, hread, plain_hexadecimal _⟩
  | ptr =>
    have hread := readBits_hexadecimal (show ReprType.ptr ≠ .i32 by decide) (by decide) bits
    exact ⟨_, rfl, hread, plain_hexadecimal _⟩
  | const =>
    have hread := readBits_decimal (show ReprType.const ≠ .i32 by decide) (by decide) bits
    exact ⟨_, rfl, hread, plain_of_digits (allDigits_ofNat _)⟩

theorem Canonical.type_named {c : Literal} (h : c.Canonical) :
    c.type ∈ ReprType.named ∧ c.type ≠ .void := by
  obtain ⟨type, bits⟩ := c
  cases type <;> first | exact h.elim | exact ⟨by simp [ReprType.named], nofun⟩

theorem read_text {c : Literal} (h : c.Canonical) : read c.text = .ok c := by
  by_cases ht : c = ofBool true
  · subst ht
    decide
  by_cases hf : c = ofBool false
  · subst hf
    decide
  obtain ⟨numeral, htext, hbits, -⟩ := text_eq h ht hf
  rw [htext]
  exact read_named h.type_named.1 h.type_named.2 hbits

theorem canonical_iff_read {c : Literal} : c.Canonical ↔ ∃ t, read t = .ok c :=
  ⟨fun h => ⟨c.text, read_text h⟩, fun ⟨_, h⟩ => canonical_of_read h⟩

theorem not_isName_text {c : Literal} (h : c.Canonical) : Token.isName c.text = false :=
  Token.not_isName_of_read (read_text h)

theorem word_text {c : Literal} (h : c.Canonical) : Token.Word c.text := by
  by_cases ht : c = ofBool true
  · subst ht
    exact ⟨by decide, by decide⟩
  by_cases hf : c = ofBool false
  · subst hf
    exact ⟨by decide, by decide⟩
  obtain ⟨numeral, htext, -, hplain⟩ := text_eq h ht hf
  have htype : ∀ type ∈ ReprType.named, type.text ≠ [] ∧ Token.Plain type.text := by decide
  obtain ⟨hne, htype⟩ := htype c.type h.type_named.1
  rw [htext]
  exact Token.Word.append_plain ⟨hne, htype⟩ (List.forall_mem_cons.mpr ⟨by decide, hplain⟩)

theorem text_injective {c c' : Literal} (h : c.Canonical) (h' : c'.Canonical)
    (ht : c.text = c'.text) : c = c' := by
  have hread := read_text h
  rw [ht, read_text h'] at hread
  exact (Except.ok.inj hread).symm

/-- Where only names stand for values, the text of a literal stands for the literal. -/
theorem operand_text {c : Literal} (h : c.Canonical) {names : Line.Names}
    (hnames : ∀ name id, names.value? name = some id → Token.isName name = true) :
    Line.operand names c.text = .ok (.literal c) := by
  have hname := not_isName_text h
  unfold Line.operand
  cases hv : names.value? c.text with
  | some id =>
    rw [hnames c.text id hv] at hname
    cases hname
  | none => simp [hname, read_text h]

/-- Literals are read back from their texts. What is read is canonical; a canonical literal is read
from its text, which is that of no other; and this text is one token that starts no comment and is
no name, so that as an operand it is the literal and never a value. -/
theorem literals_round_trip :
    (∀ t c, read t = .ok c → c.Canonical) ∧
    ∀ c, c.Canonical → read c.text = .ok c ∧
      (∀ c', c'.Canonical → c'.text = c.text → c' = c) ∧
      Token.split c.text = [c.text] ∧ ascii '#' ∉ c.text ∧ Token.isName c.text = false ∧
      ∀ names : Line.Names,
        (∀ name id, names.value? name = some id → Token.isName name = true) →
        Line.operand names c.text = .ok (.literal c) := by
  refine ⟨fun t c => canonical_of_read, fun c h => ?_⟩
  have hspells := (word_text h).spells
  exact ⟨read_text h, fun c' h' ht => text_injective h' h ht, hspells.lexes.split_eq,
    hspells.not_mem (by decide), not_isName_text h, fun names hnames => operand_text h hnames⟩

/-- The least integer, read from another spelling than its own, and the negative zero. -/
theorem literals_round_trip_extremes :
    let least : Literal := ⟨.i32, 0x80000000⟩
    let zero : Literal := ⟨.f64, 0x8000000000000000⟩
    read "i32:-0x8000_0000" = .ok least ∧ least.Canonical ∧ least.text = "i32:-2147483648" ∧
      read "i32:-2147483648" = .ok least ∧
      zero.Canonical ∧ zero.text = "f64:-0" ∧
      Line.operand ⟨[], [("f64", 0)]⟩ "f64:-0" = .ok (.literal zero) := by
  intro least zero
  obtain ⟨hcanonical, htext⟩ := literals_round_trip
  have hspelled : read "i32:-0x8000_0000" = .ok least := by decide
  have hleast : least.text = "i32:-2147483648" := by decide
  have hzero : zero.text = "f64:-0" := by decide
  have hz : zero.Canonical := Or.inl (by decide)
  have hl : least.Canonical := hcanonical _ _ hspelled
  refine ⟨hspelled, hl, hleast, hleast ▸ (htext least hl).1, hz, hzero, ?_⟩
  rw [← hzero]
  refine (htext zero hz).2.2.2.2.2 _ fun name id hname => ?_
  simp only [Line.Names.value?, List.lookup_cons, List.lookup_nil] at hname
  split at hname
  · next he =>
    rw [beq_iff_eq.mp he]
    decide
  · cases hname

end Literal

end TypeFlow
