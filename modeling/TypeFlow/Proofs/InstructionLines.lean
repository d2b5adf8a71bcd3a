import TypeFlow.Proofs.Numbering

/-! Reading an instruction line: it adds the value that it says just if it is grammatical, and
leaves everything as it was if it is not. -/

namespace TypeFlow

namespace Source

open Line

variable {file : Text} {names : Names} {l : Numbered} {b b' : Builder} {s : Statement}

/-- What has been built when the value of a statement is added. -/
def extended (b : Builder) (s : Statement) : Builder :=
  ⟨b.func.push (s.toValue b.func.values.length b.current), b.current⟩

/-- The line `l` of a draft is the next to be read, and `b` is what the lines before it built. -/
structure Draft.ArrivesAt (file : Text) (d : Draft) (names : Names) (l : Numbered) (b : Builder) :
    Prop where
  defined : defineAll file {} 0 d.lines.reverse = .ok names
  read : ∃ before after, d.lines.reverse = before ++ l :: after ∧
    before.foldlM (addLine file names) (startOf d.name names.labels) = .ok b
  instruction : Token.label? l.tokens = none

theorem Draft.ArrivesAt.unmarked {d : Draft} (h : d.ArrivesAt file names l b) : names.Unmarked :=
  ((defineAll_eq_ok_iff Names.good_nil).mp h.defined).2.1.unmarked

theorem Draft.ArrivesAt.awaits {d : Draft} (h : d.ArrivesAt file names l b)
    (hs : statement names l.tokens = .ok s) : Awaits names b s := by
  obtain ⟨before, after, hlines, hb⟩ := h.read
  obtain ⟨hnames, hg, hfirst⟩ := (defineAll_eq_ok_iff Names.good_nil).mp h.defined
  exact (Draft.inStep_of_addLines h.defined hlines hb).awaits hlines hnames hg (hfirst rfl)
    h.instruction (says_of_statement hs)

/-- The builder may refuse a value, but no line is at fault then. -/
theorem addStatement_ne_line {number : Nat} {fault : Fault} :
    addStatement names s b ≠ .error (.line file number fault) b' := by
  have hcall : ∀ {α : Type} (f : Builder → Except Builder.Fault (α × Builder)) (b : Builder),
      call f b ≠ .error (.line file number fault) b' := by
    intro α f b h
    unfold call at h
    split at h <;> cases h
  intro h
  rw [addStatement, run_bind_eq_error] at h
  rcases h with h | ⟨id, b₁, -, h⟩
  · exact hcall _ _ h
  · obtain ⟨name, body⟩ := s
    cases name with
    | none => cases h
    | some name =>
      dsimp only at h
      split at h
      · cases h
      · exact hcall _ _ h

theorem readValue_eq_ok_iff :
    (readValue file names l).run b = .ok () b' ↔
      ∃ s, statement names l.tokens = .ok s ∧ Awaits names b s ∧ b' = extended b s := by
  rw [EStateM.run, readValue]
  cases hs : statement names l.tokens with
  | error fault =>
    refine iff_of_false (fun h => by cases h) ?_
    rintro ⟨s, hok, -⟩
    cases hok
  | ok s =>
    constructor
    · intro h
      obtain ⟨hblock, -, hnumber, hb⟩ := addStatement_eq_ok_iff.mp h
      exact ⟨s, rfl, ⟨hblock, hnumber⟩, hb⟩
    · rintro ⟨_, ⟨⟩, hawaits, hb⟩
      exact addStatement_eq_ok_iff.mpr
        ⟨hawaits.block, (says_of_statement hs).op_ne_phi, hawaits.number, hb⟩

theorem readValue_eq_fault_iff {fault : Fault} :
    (readValue file names l).run b = .error (.line file l.number fault) b' ↔
      statement names l.tokens = .error fault ∧ b' = b := by
  rw [EStateM.run, readValue]
  cases hs : statement names l.tokens with
  | error found =>
    constructor
    · intro h
      cases h
      exact ⟨rfl, rfl⟩
    · rintro ⟨hfound, rfl⟩
      rw [Except.error.inj hfound]
      rfl
  | ok s => simp [addStatement_ne_line]

theorem not_grammatical_iff (hu : names.Unmarked) :
    (¬∃ s, Grammatical names l.tokens s) ↔ ∃ fault, statement names l.tokens = .error fault := by
  simp only [← statement_eq_ok_iff hu]
  cases statement names l.tokens <;> simp

/-- An instruction line of a draft is read just if it is grammatical. What it adds then is the value
that it says, with its operands, targets and edges in order. If it is not, the error carries the
number of the line and nothing is added. Out of a draft the same holds of any names of which none is
a mark, as long as there is a block to put the value in and its name stands for the next value. -/
theorem instruction_lines_exact :
    (∀ (file : Text) (d : Draft) (names : Names) (l : Numbered) (b : Builder),
      d.ArrivesAt file names l b →
      (∀ b', (readValue file names l).run b = .ok () b' ↔
        ∃ s, Grammatical names l.tokens s ∧ b' = extended b s) ∧
      ((∃ fault, (readValue file names l).run b = .error (.line file l.number fault) b) ↔
        ¬∃ s, Grammatical names l.tokens s)) ∧
    (∀ names : Names, names.Unmarked → ∀ (file : Text) (l : Numbered) (b : Builder),
      (∀ s, statement names l.tokens = .ok s ↔ Grammatical names l.tokens s) ∧
      (∀ b', (readValue file names l).run b = .ok () b' ↔
        ∃ s, Grammatical names l.tokens s ∧ Awaits names b s ∧ b' = extended b s) ∧
      (∀ fault b', (readValue file names l).run b = .error (.line file l.number fault) b' ↔
        statement names l.tokens = .error fault ∧ b' = b) ∧
      ((∃ fault, (readValue file names l).run b = .error (.line file l.number fault) b) ↔
        ¬∃ s, Grammatical names l.tokens s)) := by
  have herror : ∀ names : Names, names.Unmarked → ∀ (file : Text) (l : Numbered) (b : Builder),
      ((∃ fault, (readValue file names l).run b = .error (.line file l.number fault) b) ↔
        ¬∃ s, Grammatical names l.tokens s) := by
    intro names hu file l b
    simp [not_grammatical_iff hu, readValue_eq_fault_iff]
  constructor
  · intro file d names l b h
    refine ⟨fun b' => ?_, herror names h.unmarked file l b⟩
    rw [readValue_eq_ok_iff]
    simp only [← statement_eq_ok_iff h.unmarked]
    refine exists_congr fun s => and_congr_right fun hs => ?_
    exact and_iff_right (h.awaits hs)
  · intro names hu file l b
    refine ⟨fun s => statement_eq_ok_iff hu, fun b' => ?_, fun fault b' => readValue_eq_fault_iff,
      herror names hu file l b⟩
    simp only [readValue_eq_ok_iff, statement_eq_ok_iff hu]

/-- The φ-node of a loop is read, and it is not read any more when a comma follows. An empty name
is none. -/
theorem instruction_lines_exact_loop :
    let tokens : List Text :=
      ["n", "=", "phi", "[", "entry:", "i32:7", "]", ",", "[", "loop:", "n", "]"]
    let lines : List Numbered := [⟨4, ["loop:"]⟩, ⟨3, ["jmp", "loop"]⟩, ⟨2, ["entry:"]⟩]
    let edges : List Incoming := [⟨0, .literal (.ofInt 7)⟩, ⟨1, .value 1⟩]
    let names : Names := ⟨[Text.ofString "entry", Text.ofString "loop"], [(Text.ofString "n", 1)]⟩
    let entered : Builder := { startOf "f" names.labels with current := 0 }
    let b : Builder := { extended entered ⟨none, .instr .jmp [1] []⟩ with current := 1 }
    (Draft.ArrivesAt "in" ⟨"f", 1, ⟨5, tokens⟩ :: lines⟩ names ⟨5, tokens⟩ b ∧
      Grammatical names tokens ⟨some "n", .phi edges⟩ ∧
      ∃ b', (readValue "in" names ⟨5, tokens⟩).run b = .ok () b' ∧
        b'.func.values[1]? = some { id := 1, name := "n", block := 1, op := .phi, edges }) ∧
    (Draft.ArrivesAt "in" ⟨"f", 1, ⟨5, tokens ++ [Text.ofString ","]⟩ :: lines⟩ names
        ⟨5, tokens ++ [Text.ofString ","]⟩ b ∧
      (¬∃ s, Grammatical names (tokens ++ [Text.ofString ","]) s) ∧
      (readValue "in" names ⟨5, tokens ++ [Text.ofString ","]⟩).run b =
        .error (.line "in" 5 .commaBetweenEdges) b) ∧
    (names.Unmarked ∧ Grammatical names [[], Text.ofString "=", Text.ofString "ret"]
      ⟨none, .instr .ret [] []⟩) := by
  intro tokens lines edges names entered b
  obtain ⟨hdraft, hany⟩ := instruction_lines_exact
  have harrives : Draft.ArrivesAt "in" ⟨"f", 1, ⟨5, tokens⟩ :: lines⟩ names ⟨5, tokens⟩ b :=
    ⟨by decide +kernel, ⟨lines.reverse, [], rfl, by decide +kernel⟩, by decide +kernel⟩
  have hcut : Draft.ArrivesAt "in" ⟨"f", 1, ⟨5, tokens ++ [Text.ofString ","]⟩ :: lines⟩ names
      ⟨5, tokens ++ [Text.ofString ","]⟩ b :=
    ⟨by decide +kernel, ⟨lines.reverse, [], rfl, by decide +kernel⟩, by decide +kernel⟩
  have hu : names.Unmarked := harrives.unmarked
  obtain ⟨hstatement, -⟩ := hany names hu "in" ⟨5, tokens⟩ b
  have hgrammatical : Grammatical names tokens ⟨some "n", .phi edges⟩ :=
    (hstatement _).mp (by decide +kernel)
  obtain ⟨hblank, -⟩ := hany names hu "in" ⟨5, [[], Text.ofString "=", Text.ofString "ret"]⟩ b
  have hfault : (readValue "in" names ⟨5, tokens ++ [Text.ofString ","]⟩).run b =
      .error (.line "in" 5 .commaBetweenEdges) b := rfl
  refine ⟨⟨harrives, hgrammatical, extended b _,
      ((hdraft _ _ _ _ _ harrives).1 _).mpr ⟨_, hgrammatical, rfl⟩, by decide +kernel⟩,
    ⟨hcut, (hdraft _ _ _ _ _ hcut).2.mp ⟨_, hfault⟩, hfault⟩,
    hu, (hblank _).mp (by decide +kernel)⟩

end Source

end TypeFlow
