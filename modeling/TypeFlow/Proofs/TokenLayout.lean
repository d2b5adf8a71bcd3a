import TypeFlow.Proofs.Tokens

/-! What the tokens of a line tell about the line. Only blanks are left out, runs of bytes are cut
at blanks and marks and nowhere else, and tokens stay the same when they are written with single
spaces between them. -/

namespace TypeFlow.Token

open Text

/-- Spaces, tabs and carriage returns. -/
def blanks : Text := " \t\r"

def marks : Text := ",[]="

theorem isBlank_iff {c : UInt8} : isBlank c = true ↔ c ∈ blanks := by
  have hblanks : blanks = [ascii ' ', ascii '\t', ascii '\r'] := by decide
  simp [isBlank, hblanks, or_assoc]

theorem isMark_iff {c : UInt8} : isMark c = true ↔ c ∈ marks := by
  have hmarks : marks = [ascii ',', ascii '[', ascii ']', ascii '='] := by decide
  simp [isMark, hmarks, or_assoc]

/-- Bytes in a row, none of them a blank or a mark. -/
def IsRun (t : Text) : Prop := t ≠ [] ∧ ∀ c ∈ t, c ∉ blanks ∧ c ∉ marks

-- Decided over the bytes of the text, never over all bytes.
instance (t : Text) : Decidable (IsRun t) :=
  @instDecidableAnd _ _ inferInstance (List.decidableBAll _ t)

theorem IsToken.mark_or_run {t : Text} (h : IsToken t) : (∃ c ∈ marks, t = [c]) ∨ IsRun t := by
  rcases h with ⟨c, -, hm, rfl⟩ | ⟨hne, hplain⟩
  · exact Or.inl ⟨c, isMark_iff.mp hm, rfl⟩
  · refine Or.inr ⟨hne, fun c hc => ?_⟩
    rw [← isBlank_iff, ← isMark_iff]
    simp [hplain c hc]

theorem IsRun.not_boundary {t : Text} (h : IsRun t) (rest : Text) : ¬ Boundary (t ++ rest) := by
  intro hb
  obtain ⟨c, t, rfl⟩ := List.exists_cons_of_ne_nil h.1
  have hc := hb c rfl
  rw [Bool.or_eq_true, isBlank_iff, isMark_iff] at hc
  obtain ⟨hblank, hmark⟩ := h.2 c List.mem_cons_self
  exact hc.elim hblank hmark

theorem Boundary.of_append {s t : Text} (h : Boundary (s ++ t)) : Boundary s := by
  cases s with
  | nil => exact boundary_nil
  | cons c s => exact h

namespace Layout

variable {line : Text} {tokens : List Text}

theorem blank_of_nil (h : Layout line []) : ∀ c ∈ line, c ∈ blanks := by
  intro c hc
  have hkept := h.flatten_eq
  by_contra hblank
  rw [← isBlank_iff] at hblank
  have hmem : c ∈ line.filter fun c => !isBlank c := List.mem_filter.mpr ⟨hc, by simpa using hblank⟩
  rw [← hkept] at hmem
  cases hmem

/-- A line is cut at any of its tokens. -/
theorem cut {before after : List Text} {t : Text} (h : Layout line tokens)
    (htokens : tokens = before ++ t :: after) :
    ∃ l r, line = l ++ t ++ r ∧ Layout l before ∧ Layout r after ∧ (IsRun t → Boundary r) := by
  induction h generalizing before with
  | nil => simp at htokens
  | @blank c line tokens hc _ ih =>
    obtain ⟨l, r, rfl, hl, hr⟩ := ih htokens
    exact ⟨c :: l, r, rfl, hl.blank hc, hr⟩
  | @mark c line tokens hb hc h ih =>
    cases before with
    | nil =>
      obtain ⟨rfl, rfl⟩ := List.cons.inj htokens
      refine ⟨[], line, rfl, .nil, h, fun hrun => ?_⟩
      exact absurd (isMark_iff.mp hc) (hrun.2 c List.mem_cons_self).2
    | cons s before =>
      obtain ⟨rfl, hrest⟩ := List.cons.inj htokens
      obtain ⟨l, r, rfl, hl, hr⟩ := ih hrest
      exact ⟨c :: l, r, rfl, hl.mark hb hc, hr⟩
  | @run w line tokens hne hw hb h ih =>
    cases before with
    | nil =>
      obtain ⟨rfl, rfl⟩ := List.cons.inj htokens
      exact ⟨[], line, rfl, .nil, h, fun _ => hb⟩
    | cons s before =>
      obtain ⟨rfl, hrest⟩ := List.cons.inj htokens
      obtain ⟨l, r, rfl, hl, hr⟩ := ih hrest
      rw [List.append_assoc] at hb
      exact ⟨w ++ l, r, by simp only [List.append_assoc], hl.run hne hw hb.of_append, hr⟩

theorem gap {before after : List Text} {s t : Text}
    (h : Layout line (before ++ s :: t :: after)) (hs : IsRun s) (ht : IsRun t) :
    ∃ l gap r, line = l ++ s ++ gap ++ t ++ r ∧ gap ≠ [] ∧ (∀ c ∈ gap, c ∈ blanks) ∧
      Layout l before ∧ Layout r after := by
  obtain ⟨l, r, rfl, hl, hr, hboundary⟩ := h.cut rfl
  obtain ⟨gap, r, rfl, hgap, hr, -⟩ := hr.cut (show t :: after = [] ++ t :: after from rfl)
  refine ⟨l, gap, r, by simp only [List.append_assoc], ?_, hgap.blank_of_nil, hl, hr⟩
  -- Without a gap the first run would have gone on into the second.
  rintro rfl
  exact ht.not_boundary r (hboundary hs)

end Layout

theorem lexes_spaced {tokens : List Text} (h : ∀ t ∈ tokens, IsToken t) :
    Lexes (join (ofString " ") tokens) tokens := by
  induction tokens with
  | nil => exact lexes_nil
  | cons t tokens ih =>
    obtain ⟨ht, htokens⟩ := List.forall_mem_cons.mp h
    cases tokens with
    | nil => simpa [join] using ht.lexes
    | cons s tokens =>
      have hrest : Lexes (ofString " " ++ join (ofString " ") (s :: tokens)) (s :: tokens) :=
        (ih htokens).blank (by decide)
      rw [join, List.intercalate_cons_cons, List.append_assoc]
      exact ht.lexes.append hrest (boundary_cons (by decide) _)

/-- The tokens of a line hold all of its bytes but the blanks. Each is a mark or a run, and
neighbouring runs have blanks between them. Written with single spaces they are read again. -/
theorem split_exact (line : Text) :
    (split line).flatten = line.filter (· ∉ blanks) ∧
    (∀ t ∈ split line, (∃ c ∈ marks, t = [c]) ∨ IsRun t) ∧
    (∀ before s t after, split line = before ++ s :: t :: after → IsRun s → IsRun t →
      ∃ l gap r, line = l ++ s ++ gap ++ t ++ r ∧ gap ≠ [] ∧ (∀ c ∈ gap, c ∈ blanks) ∧
        split l = before ∧ split r = after) ∧
    split (join " " (split line)) = split line := by
  have hlayout := layout_split line
  refine ⟨?_, fun t ht => (hlayout.isToken t ht).mark_or_run, ?_,
    (lexes_spaced hlayout.isToken).split_eq⟩
  · rw [hlayout.flatten_eq]
    refine List.filter_congr fun c _ => ?_
    simp [← isBlank_iff]
  · intro before s t after hsplit hs ht
    rw [hsplit] at hlayout
    obtain ⟨l, gap, r, hline, hne, hgap, hl, hr⟩ := hlayout.gap hs ht
    exact ⟨l, gap, r, hline, hne, hgap, hl.split_eq, hr.split_eq⟩

/-- In an edge of a φ-node only the space between the label and the operand keeps them apart. -/
theorem split_exact_edge :
    split "phi\t[b0: v1]" = (["phi", "[", "b0:", "v1", "]"] : List Text) ∧
      IsRun "b0:" ∧ IsRun "v1" ∧
      ∃ l gap r, ofString "phi\t[b0: v1]" = l ++ ofString "b0:" ++ gap ++ ofString "v1" ++ r ∧
        gap ≠ [] ∧ (∀ c ∈ gap, c ∈ blanks) ∧
        split l = (["phi", "["] : List Text) ∧ split r = (["]"] : List Text) := by
  have hsplit : split "phi\t[b0: v1]" = (["phi", "[", "b0:", "v1", "]"] : List Text) := by decide
  have hlabel : IsRun "b0:" := by decide
  have hoperand : IsRun "v1" := by decide
  obtain ⟨-, -, hgap, -⟩ := split_exact "phi\t[b0: v1]"
  exact ⟨hsplit, hlabel, hoperand, hgap ["phi", "["] _ _ ["]"] hsplit hlabel hoperand⟩

end TypeFlow.Token
