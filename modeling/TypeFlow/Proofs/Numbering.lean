import TypeFlow.Proofs.Finishing
import TypeFlow.Proofs.Statements

/-! The lines of a function are read twice, first for the names they define and then for what they
say. The first reading foretells the numbers that values get in the second: the value of a line has
as many lines with values before it. Both readings stay in step on any lines, up to the first fault,
so that a source is either accepted or found at fault, and a name stands for the value of the line
that defines it, be it above or below. -/

namespace TypeFlow

theorem exists_split_cons_iff {α : Type} {P : List α → α → Prop} {a : α} {l : List α} :
    (∃ before x after, a :: l = before ++ x :: after ∧ P before x) ↔
      P [] a ∨ ∃ before x after, l = before ++ x :: after ∧ P (a :: before) x := by
  constructor
  · rintro ⟨before, x, after, he, hp⟩
    cases before with
    | nil =>
      obtain ⟨rfl, rfl⟩ := List.cons.inj he
      exact Or.inl hp
    | cons c before =>
      obtain ⟨rfl, rfl⟩ := List.cons.inj he
      exact Or.inr ⟨before, x, after, rfl, hp⟩
  · rintro (hp | ⟨before, x, after, rfl, hp⟩)
    · exact ⟨[], a, l, rfl, hp⟩
    · exact ⟨a :: before, x, after, rfl, hp⟩

theorem split_concat {α : Type} {l before after : List α} {a x : α}
    (h : l ++ [a] = before ++ x :: after) :
    (before = l ∧ x = a) ∨ ∃ rest, l = before ++ x :: rest := by
  rcases List.eq_nil_or_concat after with rfl | ⟨rest, y, rfl⟩
  · obtain ⟨rfl, hx⟩ := List.append_inj' h rfl
    exact Or.inl ⟨rfl, (List.cons.inj hx).1.symm⟩
  · rw [List.concat_eq_append, ← List.cons_append, ← List.append_assoc] at h
    exact Or.inr ⟨rest, (List.append_inj' h rfl).1⟩

namespace Source

open Line

/-- How many of some lines have a value, as all have that are no labels. -/
def valueLines (lines : List Numbered) : Nat := lines.countP fun l => (Token.label? l.tokens).isNone

/-- What a token stands for as an operand of a function: the value of the line that defines it,
which has as many lines with values before it as its number says, or if there is none, a literal. -/
def Denotes (body : List Numbered) (token : Text) (o : Operand) : Prop :=
  (∀ before l after, body = before ++ l :: after → head l.tokens = .value (some token) →
    o = .value (valueLines before)) ∧
  ((∀ l ∈ body, head l.tokens ≠ .value (some token)) →
    ∃ lit, Literal.read token = .ok lit ∧ o = .literal lit)

/-- The values of a function are those of its lines, in order and under their names, and their
operands are what the tokens stand for. -/
structure Transcribes (body : List Numbered) (fn : Func) : Prop where
  length : fn.values.length = valueLines body
  value : ∀ before l after, body = before ++ l :: after → ∀ name, head l.tokens = .value name →
    ∃ v, fn.values[valueLines before]? = some v ∧ v.id = valueLines before ∧
      v.name = name.getD [] ∧
      List.Forall₂ (Denotes body) (operandTokens l.tokens) v.operands

theorem head_eq_value_iff {tokens : List Text} {name : Option Text} :
    head tokens = .value name ↔ Token.label? tokens = none ∧ (result tokens).1 = name := by
  cases h : Token.label? tokens <;> simp [head, h]

theorem valueLines_cons (l : Numbered) (lines : List Numbered) :
    valueLines (l :: lines) =
      valueLines lines + if (Token.label? l.tokens).isNone then 1 else 0 :=
  List.countP_cons

theorem valueLines_concat (lines : List Numbered) (l : Numbered) :
    valueLines (lines ++ [l]) =
      valueLines lines + if (Token.label? l.tokens).isNone then 1 else 0 := by
  simp [valueLines, List.countP_append, List.countP_cons]

/-! Names -/

theorem mem_values_addAll {names : Names} {next : ValueId} {lines : List Numbered} {name : Text}
    {id : ValueId} :
    (name, id) ∈ (names.addAll next (lines.map fun l => head l.tokens)).values ↔
      (name, id) ∈ names.values ∨ ∃ before l after, lines = before ++ l :: after ∧
        head l.tokens = .value (some name) ∧ id = next + valueLines before := by
  induction lines generalizing names next with
  | nil => simp [Names.addAll]
  | cons l lines ih =>
    rw [List.map_cons, Names.addAll, ih, exists_split_cons_iff
      (P := fun before l => head l.tokens = .value (some name) ∧ id = next + valueLines before)]
    cases hl : Token.label? l.tokens with
    | some label =>
      have hhead : head l.tokens = .label label := by simp [head, hl]
      simp [hhead, Names.add, valueLines_cons, hl]
    | none =>
      have hhead : head l.tokens = .value (result l.tokens).1 := by simp [head, hl]
      have hnext : ∀ before, next + ((valueLines (l :: before) : Nat) : ValueId) =
          next + 1 + (valueLines before : Nat) := by
        intro before
        rw [valueLines_cons, hl, Option.isNone_none, if_pos rfl, Int.natCast_succ,
          Int.add_comm _ 1, ← Int.add_assoc]
      simp only [hhead, hnext]
      cases (result l.tokens).1 with
      | none => simp [Names.add]
      | some first =>
        have hzero : valueLines [] = 0 := rfl
        simp only [Names.add, List.mem_cons, Prod.mk.injEq, Head.value.injEq, Option.some.injEq,
          hzero, Int.natCast_zero, Int.add_zero]
        rw [eq_comm (a := name), or_assoc, or_left_comm]

theorem value?_eq_some_iff {names : Names} {body : List Numbered}
    (hnames : names = Names.addAll {} 0 (body.map fun l => head l.tokens)) (hg : names.Good)
    {name : Text} {id : ValueId} :
    names.value? name = some id ↔ ∃ before l after, body = before ++ l :: after ∧
      head l.tokens = .value (some name) ∧ id = valueLines before := by
  rw [hg.value?_eq_some_iff, hnames, mem_values_addAll]
  simp

theorem denotes_of_operand {names : Names} {body : List Numbered}
    (hnames : names = Names.addAll {} 0 (body.map fun l => head l.tokens)) (hg : names.Good)
    {token : Text} {o : Operand} (h : operand names token = .ok o) : Denotes body token o := by
  cases operand_eq_ok_iff.mp h with
  | value hid =>
    refine ⟨fun before l after he hl => ?_, fun hno => ?_⟩
    · have hfound := (value?_eq_some_iff hnames hg).mpr ⟨before, l, after, he, hl, rfl⟩
      rw [Option.some.inj (hid.symm.trans hfound)]
    · obtain ⟨before, l, after, rfl, hl, -⟩ := (value?_eq_some_iff hnames hg).mp hid
      exact absurd hl (hno l (by simp))
  | literal hnone hread =>
    refine ⟨fun before l after he hl => ?_, fun _ => ⟨_, hread, rfl⟩⟩
    have hfound := (value?_eq_some_iff hnames hg).mpr ⟨before, l, after, he, hl, rfl⟩
    cases hnone.symm.trans hfound

theorem block?_of_label {names : Names} {body : List Numbered}
    (hnames : names = Names.addAll {} 0 (body.map fun l => head l.tokens)) (hg : names.Good)
    {l : Numbered} (hl : l ∈ body) {label : Text} (hlabel : Token.label? l.tokens = some label) :
    ∃ i : Nat, i < names.labels.length ∧ names.block? label = some (i : BlockId) := by
  have hm : label ∈ names.labels := by
    rw [hnames, Names.labels_addAll]
    refine List.mem_append_right _ (List.mem_filterMap.mpr ⟨.label label, ?_, rfl⟩)
    exact List.mem_map.mpr ⟨l, hl, by simp [head, hlabel]⟩
  obtain ⟨i, hi⟩ := List.getElem?_of_mem hm
  exact ⟨i, (List.getElem?_eq_some_iff.mp hi).1, hg.block?_getElem hi⟩

/-! The second reading -/

/-- What has been built after the lines in `done`. -/
structure InStep (names : Names) (done : List Numbered) (b : Builder) : Prop where
  blocks_length : b.func.blocks.length = names.labels.length
  values_length : b.func.values.length = valueLines done
  current : done ≠ [] → b.func.hasBlock b.current = true
  value : ∀ before l after, done = before ++ l :: after → Token.label? l.tokens = none →
    ∃ s block, Says names l.tokens s ∧
      b.func.values[valueLines before]? = some (s.toValue (valueLines before) block)

theorem inStep_startOf (names : Names) (name : Text) :
    InStep names [] (startOf name names.labels) := by
  refine ⟨by simp [startOf], rfl, fun h => absurd rfl h, fun before l after he => ?_⟩
  cases before <;> cases he

theorem InStep.enter {names : Names} {done : List Numbered} {b : Builder}
    (h : InStep names done b) {l : Numbered} {label : Text}
    (hlabel : Token.label? l.tokens = some label) {i : Nat} (hi : i < names.labels.length) :
    InStep names (done ++ [l]) { b with current := i } := by
  refine ⟨h.blocks_length, ?_, fun _ => ?_, fun before x after he hx => ?_⟩
  · rw [h.values_length, valueLines_concat, hlabel]
    rfl
  · simp [Func.hasBlock, h.blocks_length, hi]
  · rcases split_concat he with ⟨rfl, rfl⟩ | ⟨rest, rfl⟩
    · cases hlabel.symm.trans hx
    · exact h.value before x rest rfl hx

theorem InStep.push {names : Names} {done : List Numbered} {b : Builder}
    (h : InStep names done b) {l : Numbered} (hlabel : Token.label? l.tokens = none)
    {s : Statement} (hs : Says names l.tokens s) (hcur : b.func.hasBlock b.current = true) :
    InStep names (done ++ [l])
      ⟨b.func.push (s.toValue b.func.values.length b.current), b.current⟩ := by
  refine ⟨?_, ?_, fun _ => ?_, fun before x after he hx => ?_⟩
  · simpa [Func.push] using h.blocks_length
  · rw [valueLines_concat, hlabel, ← h.values_length]
    simp [Func.push]
  · simpa [Func.push, Func.hasBlock] using hcur
  · rcases split_concat he with ⟨rfl, rfl⟩ | ⟨rest, rfl⟩
    · refine ⟨s, b.current, hs, ?_⟩
      simp [Func.push, ← h.values_length]
    · obtain ⟨s', block, hs', hv⟩ := h.value before x rest rfl hx
      refine ⟨s', block, hs', ?_⟩
      rw [Func.push, List.getElem?_append_left (List.getElem?_eq_some_iff.mp hv).1]
      exact hv

/-- The value of a statement can be added: there is a block to put it in, and its name stands for
the next value. -/
structure Awaits (names : Names) (b : Builder) (s : Statement) : Prop where
  block : b.func.hasBlock b.current = true
  number : ∀ name, s.name = some name → (names.value? name).getD 0 = b.func.values.length

/-- The name that a line defines was given the number that the next value gets, and there is a block
to put the value in, as the first line is a label. -/
theorem InStep.awaits {names : Names} {body done rest : List Numbered} {l : Numbered}
    (hbody : body = done ++ l :: rest)
    (hnames : names = Names.addAll {} 0 (body.map fun l => head l.tokens)) (hg : names.Good)
    (hfirst : ∀ l ∈ body.head?, ∀ name, head l.tokens ≠ .value name) {b : Builder}
    (h : InStep names done b) (hlabel : Token.label? l.tokens = none) {s : Statement}
    (hs : Says names l.tokens s) : Awaits names b s := by
  constructor
  · apply h.current
    rintro rfl
    exact hfirst l (by simp [hbody]) _ (head_eq_value_iff.mpr ⟨hlabel, rfl⟩)
  · intro name hname
    have hhead : head l.tokens = .value (some name) :=
      head_eq_value_iff.mpr ⟨hlabel, hs.written hname⟩
    rw [(value?_eq_some_iff hnames hg).mpr ⟨done, l, rest, hbody, hhead, rfl⟩, h.values_length]
    rfl

/-- A line keeps the two readings in step, or is at fault itself. -/
theorem InStep.addLine (file : Text) {names : Names} {body done rest : List Numbered} {l : Numbered}
    (hbody : body = done ++ l :: rest)
    (hnames : names = Names.addAll {} 0 (body.map fun l => head l.tokens)) (hg : names.Good)
    (hfirst : ∀ l ∈ body.head?, ∀ name, head l.tokens ≠ .value name) {b : Builder}
    (h : InStep names done b) :
    (∃ b', Source.addLine file names b l = .ok b' ∧ InStep names (done ++ [l]) b') ∨
      ∃ fault, Source.addLine file names b l = .error (.line file l.number fault) := by
  rw [addLine_eq]
  cases hlabel : Token.label? l.tokens with
  | some label =>
    obtain ⟨i, hi, hblock⟩ := block?_of_label hnames hg (l := l) (by simp [hbody]) hlabel
    simp only [hblock, Option.getD_some]
    exact Or.inl ⟨_, rfl, h.enter hlabel hi⟩
  | none =>
    dsimp only
    cases hs : statement names l.tokens with
    | error fault => exact Or.inr ⟨fault, rfl⟩
    | ok s =>
      have hsays := says_of_statement hs
      have hawaits := h.awaits hbody hnames hg hfirst hlabel hsays
      have hadd := addStatement_eq_ok_iff.mpr
        ⟨hawaits.block, hsays.op_ne_phi, hawaits.number, rfl⟩
      exact Or.inl ⟨_, built_eq_ok.mpr hadd, h.push hlabel hsays hawaits.block⟩

theorem InStep.addLines {file : Text} {names : Names} {body : List Numbered}
    (hnames : names = Names.addAll {} 0 (body.map fun l => head l.tokens)) (hg : names.Good)
    (hfirst : ∀ l ∈ body.head?, ∀ name, head l.tokens ≠ .value name)
    {done lines rest : List Numbered} {b : Builder} (hbody : body = done ++ lines ++ rest)
    (h : InStep names done b) :
    (∃ b', lines.foldlM (Source.addLine file names) b = .ok b' ∧ InStep names (done ++ lines) b') ∨
      ∃ number fault,
        lines.foldlM (Source.addLine file names) b = .error (.line file number fault) := by
  induction lines generalizing done b with
  | nil => exact Or.inl ⟨b, rfl, by simpa using h⟩
  | cons l lines ih =>
    rw [List.foldlM_cons]
    rw [List.append_assoc, List.cons_append] at hbody
    rcases h.addLine file hbody hnames hg hfirst with ⟨b', hb', hnext⟩ | ⟨fault, hfault⟩
    · rw [hb', ← List.singleton_append, ← List.append_assoc]
      exact ih (by rw [hbody]; simp) hnext
    · rw [hfault]
      exact Or.inr ⟨l.number, fault, rfl⟩

/-! Functions and sources -/

/-- The errors that are no fault of a source: the builder refuses a call, a value does not get the
number that was foretold, or a number names nothing. -/
def Error.isCrash : Error → Bool
  | .call _ | .misnumbered _ _ _ | .refused _ .dangling => true
  | _ => false

/-- The lines of a draft can be read, and `b` is what they build. -/
def Draft.Builds (file : Text) (d : Draft) (b : Builder) : Prop :=
  ∃ names, defineAll file {} 0 d.lines.reverse = .ok names ∧
    d.lines.reverse.foldlM (addLine file names) (startOf d.name names.labels) = .ok b

theorem isCrash_defineAll {file : Text} {names : Names} {next : ValueId} {lines : List Numbered}
    {e : Error} (h : defineAll file names next lines = .error e) : e.isCrash = false := by
  induction lines generalizing names next with
  | nil => cases h
  | cons l lines ih =>
    rw [defineAll] at h
    split at h
    · cases h
      rfl
    · exact ih h

namespace Draft

variable {file : Text} {d : Draft}

theorem Builds.leads {b : Builder} (h : d.Builds file b) : (Builder.new d.name).Leads b := by
  obtain ⟨names, -, hb⟩ := h
  exact leads_addLines hb

/-- The two readings of a draft, of which the second finds what the first foretold. -/
theorem addLines_cases {names : Names} {lines rest : List Numbered}
    (h : defineAll file {} 0 d.lines.reverse = .ok names)
    (hlines : d.lines.reverse = lines ++ rest) :
    (∃ b, lines.foldlM (addLine file names) (startOf d.name names.labels) = .ok b ∧
      InStep names lines b) ∨
    ∃ number fault, lines.foldlM (addLine file names) (startOf d.name names.labels) =
      .error (.line file number fault) := by
  obtain ⟨hnames, hg, hfirst⟩ := (defineAll_eq_ok_iff Names.good_nil).mp h
  exact (inStep_startOf names d.name).addLines hnames hg (hfirst rfl) hlines

theorem inStep_of_addLines {names : Names} {lines rest : List Numbered} {b : Builder}
    (h : defineAll file {} 0 d.lines.reverse = .ok names) (hlines : d.lines.reverse = lines ++ rest)
    (hb : lines.foldlM (addLine file names) (startOf d.name names.labels) = .ok b) :
    InStep names lines b := by
  rcases addLines_cases h hlines with ⟨b', hb', hstep⟩ | ⟨number, fault, hfault⟩
  · cases hb'.symm.trans hb
    exact hstep
  · cases hfault.symm.trans hb

theorem isCrash_toFunc {e : Error} (h : d.toFunc file = .error e) : e.isCrash = false := by
  unfold toFunc at h
  simp only [foldl_addBlock] at h
  rcases bind_eq_error.mp h with hdefine | ⟨names, hdefine, h⟩
  · exact isCrash_defineAll hdefine
  split at h
  · cases h
    rfl
  rcases bind_eq_error.mp h with hlines | ⟨b, hlines, h⟩
  · rcases addLines_cases hdefine (List.append_nil _).symm with ⟨b, hb, -⟩ | ⟨number, fault, hfault⟩
    · cases hb.symm.trans hlines
    · cases hfault.symm.trans hlines
      rfl
  · cases hf : b.finish with
    | ok fn =>
      rw [hf] at h
      cases h
    | error cause =>
      have hne : cause ≠ .dangling := by
        rintro rfl
        exact (Builds.leads ⟨names, hdefine, hlines⟩).tidy.finish_ne_dangling hf
      rw [hf] at h
      cases h
      cases cause with
      | dangling => exact absurd rfl hne
      | _ => rfl

theorem transcribes {fn : Func} (h : d.toFunc file = .ok fn) :
    Transcribes d.lines.reverse fn := by
  obtain ⟨names, b, hdefine, -, hb, hf⟩ := toFunc_eq_ok_iff.mp h
  obtain ⟨hnames, hg, -⟩ := (defineAll_eq_ok_iff Names.good_nil).mp hdefine
  have hstep := inStep_of_addLines hdefine (List.append_nil _).symm hb
  have hlink := Builder.finish_linkable (Builds.leads ⟨names, hdefine, hb⟩).tidy hf
  obtain rfl := (Builder.finish_eq_ok hf).1
  rw [hlink.linked_eq]
  refine ⟨by simpa using hstep.values_length, fun before l after he name hname => ?_⟩
  obtain ⟨hlabel, rfl⟩ := head_eq_value_iff.mp hname
  obtain ⟨s, block, hs, hv⟩ := hstep.value before l after he hlabel
  refine ⟨_, by rw [List.getElem?_map, hv]; rfl, ?_, ?_, ?_⟩
  · cases hbody : s.body <;> simp [Statement.toValue, hbody]
  · rw [← hs.getD_name]
    cases hbody : s.body <;> simp [Statement.toValue, hbody]
  · exact (hs.operands _ block).imp fun _ _ ho => denotes_of_operand hnames hg ho

end Draft

theorem Progress.isCrash_close {file : Text} {p : Progress} {e : Error}
    (h : p.close file = .error e) : e.isCrash = false := by
  unfold close at h
  split at h
  · cases h
  · exact Draft.isCrash_toFunc (map_eq_error.mp h)

theorem Progress.isCrash_step {file : Text} {p : Progress} {l : Numbered} {e : Error}
    (h : p.step file l = .error e) : e.isCrash = false := by
  unfold step at h
  split at h
  · split at h
    · exact isCrash_close (map_eq_error.mp h)
    · cases h
      rfl
  · split at h
    · cases h
      rfl
    · cases h

theorem isCrash_parse {file src : Text} {e : Error} (h : parse file src = .error e) :
    e.isCrash = false := by
  rw [parse_eq] at h
  rcases bind_eq_error.mp h with hlines | ⟨p, -, hfinish⟩
  · obtain ⟨p, l, hstep⟩ := exists_error_of_foldlM hlines
    exact Progress.isCrash_step hstep
  · unfold Progress.finish at hfinish
    split at hfinish
    · cases hfinish
      rfl
    · exact Progress.isCrash_close (map_eq_error.mp hfinish)

/-- Whatever the source, reading it ends with functions or with a fault of the source, and what a
builder is left with when a function is finished has all that linking goes by. The functions that
are read are those of the headers in the source. The value of a line has as many lines with values
before it as its number says, and the same number is what its name stands for in all lines. -/
theorem parse_in_step (file src : Text) :
    (∀ e, parse file src = .error e → e.isCrash = false) ∧
    (∀ d b, Draft.Builds file d b → b.func.missingTarget? = none → b.func.Anchored) ∧
    (∀ fns, parse file src = .ok fns → ∃ ds : List Draft,
      numbered (rawLines src) = ds.flatMap Draft.source ∧ (∀ d ∈ ds, IsBody d.lines) ∧
      List.Forall₂ (fun d fn => Transcribes d.lines.reverse fn) ds fns) := by
  refine ⟨fun e h => isCrash_parse h, fun d b hb => hb.leads.tidy.anchored, fun fns h => ?_⟩
  obtain ⟨ds, hlines, hds, hnew⟩ := exists_drafts_of_parse h
  exact ⟨ds, hlines, hds, hnew.imp fun _ _ hfn => Draft.transcribes hfn⟩

/-- A loop in which `p` refers to `q`, which is defined below it. -/
def lookahead : Text :=
  "func f\ne:\n\tjmp l\nl:\n\tp = phi [e: i32:0], [l: q]\n\tq = add.i32 p, i32:1\n\tjmp l\n"

/-- The loop is read, and a line that would give its value the name `=` is at fault. -/
theorem parse_in_step_lookahead :
    (∃ fns, parse "in" lookahead = .ok fns ∧ ∃ ds : List Draft,
      numbered (rawLines lookahead) = ds.flatMap Draft.source ∧
      List.Forall₂ (fun d fn => Transcribes d.lines.reverse fn) ds fns) ∧
    ∃ e, parse "in" "func f\ne:\n\t= = ret\n" = .error e ∧ e.isCrash = false := by
  refine ⟨?_, .line "in" 3 (.invalidName "="), by decide +kernel,
    (parse_in_step "in" "func f\ne:\n\t= = ret\n").1 _ (by decide +kernel)⟩
  cases h : parse "in" lookahead with
  | error e =>
    have hread : (parse "in" lookahead).toOption.isSome = true := by decide +kernel
    simp [h, Except.toOption] at hread
  | ok fns =>
    obtain ⟨ds, hlines, -, hfns⟩ := (parse_in_step "in" lookahead).2.2 fns h
    exact ⟨fns, rfl, ds, hlines, hfns⟩

example : (parse "in" lookahead).toOption.map (·.map fun fn => fn.values.map (·.operands)) =
    some [[[], [.literal (.ofInt 0), .value 2], [.value 1, .literal (.ofInt 1)], []]] := by
  decide +kernel

end Source

end TypeFlow
