import TypeFlow.Proofs.IndexSafety
import TypeFlow.Proofs.RoundTrip

/-! Comments do not count when a listing is read. An annotated listing has the lines of the plain
one, some of them with a comment behind, so it falls into the same tokens on the same lines. -/

namespace TypeFlow

theorem Fact.plain_text (f : Fact) : Token.Plain f.text :=
  fun c hc => Token.isBreak_eq_false (by decide) (f.isTextByte_text c hc)

namespace Token

theorem plain_nil : Plain [] := nofun

theorem Plain.not_mem {t : Text} (h : Plain t) {c : UInt8} (hc : isBreak c = true) : c ∉ t := by
  intro hm
  have hplain := h c hm
  rw [hc] at hplain
  cases hplain

theorem Lexes.append_blank {t : Text} {tokens : List Text} (h : Lexes t tokens) {c : UInt8}
    (hc : isBlank c = true) : split (t ++ [c]) = tokens := by
  have hboundary : Boundary [c] := boundary_cons (by simp [hc]) []
  rw [h [c] hboundary]
  simp [split, splitFrom, hc, ofRun]

end Token

theorem Text.before_append {sep : UInt8} {s : Text} (hs : sep ∉ s) (t : Text) :
    before sep (s ++ sep :: t) = s := by
  have hall : ∀ c ∈ s, (c != sep) = true := by
    intro c hc
    simpa using ne_of_mem_of_not_mem hc hs
  rw [before, List.takeWhile_append_of_pos hall]
  simp

theorem withComment_of_ne_nil (line : Text) {comment : Text} (h : comment ≠ []) :
    withComment line comment =
      (line ++ [Text.ascii ' ']) ++ Text.ascii '#' :: Text.ascii ' ' :: comment := by
  rw [withComment, if_neg (by simpa using h), List.append_assoc, List.append_assoc]
  rfl

theorem not_mem_withComment {c : UInt8} {line comment : Text} (hline : c ∉ line)
    (hmark : c ∉ Text.ofString " # ") (hcomment : c ∉ comment) : c ∉ withComment line comment := by
  unfold withComment
  split
  · exact hline
  · simp [hline, hmark, hcomment]

theorem length_le_withComment (line comment : Text) :
    line.length ≤ (withComment line comment).length := by
  by_cases h : comment = []
  · simp [withComment, h]
  · rw [withComment_of_ne_nil line h]
    simp only [List.length_append, List.length_cons]
    omega

namespace Source

open Token

/-- The second line is the first one, with a comment behind it or not. -/
def Commented (line line' : Text) : Prop :=
  ∃ comment, Plain comment ∧ line' = withComment line comment

theorem Commented.newline_not_mem {line line' : Text} (h : Commented line line')
    (hline : Text.ascii '\n' ∉ line) : Text.ascii '\n' ∉ line' := by
  obtain ⟨comment, hplain, rfl⟩ := h
  exact not_mem_withComment hline (by decide) (hplain.not_mem (by decide))

theorem Commented.split_eq {line line' : Text} {tokens : List Text} (h : Commented line line')
    (hline : Spells line tokens) :
    Token.split (Text.before (Text.ascii '#') (dropReturn line')) = tokens := by
  obtain ⟨comment, hplain, rfl⟩ := h
  by_cases hnil : comment = []
  · rw [hnil]
    exact split_spelled hline
  · have hreturn : Text.ascii '\r' ∉ withComment line comment :=
      not_mem_withComment (hline.not_mem (by decide)) (by decide) (hplain.not_mem (by decide))
    have hmark : Text.ascii '#' ∉ line ++ [Text.ascii ' '] := by
      rw [List.mem_append, not_or]
      exact ⟨hline.not_mem (by decide), by decide⟩
    rw [dropReturn_eq_self hreturn, withComment_of_ne_nil line hnil, Text.before_append hmark]
    exact hline.lexes.append_blank (by decide)

/-- Lines that fall into the same tokens are the same to what is read from them. -/
theorem numbered_commented {lines lines' : List Text} {tokens : List (List Text)}
    (hspells : List.Forall₂ Spells lines tokens) (h : List.Forall₂ Commented lines lines') :
    numbered lines' = numbered lines := by
  unfold numbered
  generalize 1 = n
  induction h generalizing tokens n with
  | nil => rfl
  | @cons line line' lines lines' hline hlines ih =>
    obtain ⟨ts, tokens, hts, htokens, rfl⟩ := List.forall₂_cons_left_iff.mp hspells
    rw [List.zipIdx_cons, List.zipIdx_cons, List.filterMap_cons, List.filterMap_cons, ih htokens]
    simp only [hline.split_eq hts, split_spelled hts]

theorem parse_of_short {file src : Text} (h : ∀ line ∈ rawLines src, line.length < maxLine) :
    parse file src = ((numbered (rawLines src)).foldlM (Progress.step file) {} >>=
      Progress.finish file false) := by
  have hread : (readable src).1 = rawLines src := by
    simpa only [readable, List.takeWhile_eq_self_iff, decide_eq_true_eq] using h
  rw [parse_eq, cut_eq_false_iff.mpr hread, hread]

theorem newline_not_mem_commented {lines lines' : List Text} {tokens : List (List Text)}
    (hspells : List.Forall₂ Spells lines tokens) (h : List.Forall₂ Commented lines lines') :
    ∀ line ∈ lines', Text.ascii '\n' ∉ line := by
  intro line' hl
  obtain ⟨line, hl, hline⟩ := exists_of_mem_left h.flip hl
  exact Commented.newline_not_mem hline (newline_not_mem_spelled hspells line hl)

/-- Comments make no difference to what is read, unless they make a line too long. -/
theorem parse_commented {lines lines' : List Text} {tokens : List (List Text)}
    (hspells : List.Forall₂ Spells lines tokens) (h : List.Forall₂ Commented lines lines')
    (hshort : ∀ line ∈ lines', line.length < maxLine) (file : Text) :
    parse file (lines'.flatMap (· ++ Text.ofString "\n")) =
      parse file (lines.flatMap (· ++ Text.ofString "\n")) := by
  have hshorter : ∀ line ∈ lines, line.length < maxLine := by
    intro line hl
    obtain ⟨_, hl', comment, -, rfl⟩ := exists_of_mem_left h hl
    exact Nat.lt_of_le_of_lt (length_le_withComment line comment) (hshort _ hl')
  have hraw := rawLines_flatMap (newline_not_mem_spelled hspells)
  have hraw' := rawLines_flatMap (newline_not_mem_commented hspells h)
  rw [parse_of_short (hraw'.symm ▸ hshort), parse_of_short (hraw.symm ▸ hshorter), hraw, hraw',
    numbered_commented hspells h]

end Source

theorem Func.commented_lines (fn : Func) {block : Block → Text} {value : Value → Text}
    (hblock : ∀ b, Token.Plain (block b)) (hvalue : ∀ v ∈ fn.printed, Token.Plain (value v)) :
    List.Forall₂ Source.Commented fn.lines (fn.notedLines block value) := by
  refine .cons ⟨[], Token.plain_nil, rfl⟩ (forall₂_flatMap fun b hb => .cons ?_ ?_)
  · exact ⟨block b, hblock b, rfl⟩
  · rw [List.forall₂_map_left_iff, List.forall₂_map_right_iff, List.forall₂_same]
    intro v hv
    exact ⟨value v, hvalue v (List.mem_flatMap.mpr ⟨b, hb, hv⟩), rfl⟩

theorem Solution.exists_note {fn : Func} (h : fn.Finished) {s : Solution}
    (hlen : s.facts.length = fn.values.length) {v : Value} (hv : v ∈ fn.values) :
    ∃ comment, (s.notes fn).value v = some comment ∧ Token.Plain comment := by
  have hvalue := h.value?_of_mem hv
  obtain ⟨f, hf⟩ := exists_fact hlen hvalue
  by_cases hshow : v.op.hasOutput = true ∧ s.isReachable v.block = true
  · exact ⟨f.text, by simp [notes, hvalue, hf, hshow], f.plain_text⟩
  · exact ⟨[], by simp [notes, hvalue, hshow], Token.plain_nil⟩

open Source

/-- Whatever is found out about the values of a function, its comments are not read. -/
theorem Solution.parse_listing {fn : Func} (hf : fn.Finished) (hp : fn.Presentable) {s : Solution}
    (hlen : s.facts.length = fn.values.length) :
    ∃ plain annotated, fn.listing? = some plain ∧ s.listing? fn = some annotated ∧
      ((∀ line ∈ rawLines annotated, line.length < maxLine) →
        ∀ file, parse file annotated = parse file plain) := by
  have hspells := hp.spells_lines hf
  choose! comment hnote hplain using fun v => exists_note hf hlen (v := v)
  have hblock : ∀ b, Token.Plain ((s.notes fn).block b) := by
    intro b
    show Token.Plain (if s.isReachable b.id then _ else _)
    split <;> decide
  have hlines : List.Forall₂ Commented fn.lines (fn.notedLines (s.notes fn).block comment) :=
    fn.commented_lines hblock fun v hv => hplain v (hf.mem_printed.mp hv)
  refine ⟨_, _, hf.listing?_eq, hf.annotated?_eq (s.notes fn) comment hnote, fun hshort file => ?_⟩
  have hraw : rawLines ((fn.notedLines (s.notes fn).block comment).flatMap
      (· ++ Text.ofString "\n")) = fn.notedLines (s.notes fn).block comment :=
    rawLines_flatMap (newline_not_mem_commented hspells hlines)
  exact parse_commented hspells hlines (hraw ▸ hshort) file

namespace Task

/-- What was found out about a function that was read is shown in comments that are not read: the
annotated listing is read as the plain one, or fails as this does on the same line. -/
theorem parse_annotated {t : Task} (hfn : t.func.Parsed) {s : State} (hs : t.Returns s) :
    ∃ plain annotated, t.func.listing? = some plain ∧ s.listing? t.func = some annotated ∧
      ((∀ line ∈ rawLines annotated, line.length < maxLine) →
        ∀ file, parse file annotated = parse file plain) := by
  obtain ⟨file, src, fns, hparse, hmem⟩ := hfn
  have hf := (parse_built hparse _ hmem).finished
  obtain ⟨n, last, hlast, -, -, rfl⟩ := hs.midway hf.wellFormed
  have hlen := (hlast.coherent hf.wellFormed).facts_length
  exact Solution.parse_listing hf (parse_presentable hparse _ hmem) hlen

def clashingSource : Text := "func f\ne:\n\tv1 = arg i32:0\n\targ i32:1\n\tret\n"

def clashing : Task :=
  ⟨((parse "in" clashingSource).toOption.bind List.head?).get (by decide +kernel), {}⟩

def clashingNoted : Text :=
  "func f\ne: # reachable\n\tv1 = arg i32:0 # ⊥\n\tv1 = arg i32:1 # ⊥\n\tret\n"

/-- Two values are shown under one name, so the listing is refused on its fourth line, with comments
as without. -/
theorem parse_annotated_clashing :
    clashing.func.Parsed ∧ clashing.Returns (clashing.analyze 20).state ∧
      (clashing.analyze 20).state.listing? clashing.func = some clashingNoted ∧
      parse "in" clashingNoted = .error (.line "in" 4 (.redefined "v1")) := by
  have hparse : parse "in" clashingSource = .ok [clashing.func] := by decide +kernel
  have hparsed : clashing.func.Parsed := ⟨_, _, _, hparse, List.mem_singleton_self _⟩
  have hreturns : clashing.Returns (clashing.analyze 20).state :=
    returns_of_analyze (by decide +kernel)
  have hnoted : (clashing.analyze 20).state.listing? clashing.func = some clashingNoted := by
    decide +kernel
  have hplain : clashing.func.listing? =
      some "func f\ne:\n\tv1 = arg i32:0\n\tv1 = arg i32:1\n\tret\n" := by decide +kernel
  obtain ⟨plain, annotated, hp, ha, hsame⟩ := parse_annotated hparsed hreturns
  obtain rfl := Option.some.inj (hplain.symm.trans hp)
  obtain rfl := Option.some.inj (hnoted.symm.trans ha)
  refine ⟨hparsed, hreturns, hnoted, ?_⟩
  rw [hsame (by decide +kernel) "in"]
  decide +kernel

end Task

end TypeFlow
