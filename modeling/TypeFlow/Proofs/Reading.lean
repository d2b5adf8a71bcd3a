import Mathlib.Data.List.Induction
import Mathlib.Data.List.Nodup
import TypeFlow.Proofs.Construction
import TypeFlow.Proofs.Tokens

/-! What reading the lines of a function comes to: which names they define, what each of them adds,
and how the lines of a source are dealt out to its functions. -/

namespace TypeFlow

theorem modify_length_append {α : Type} (xs : List α) (x : α) (ys : List α) (f : α → α) :
    (xs ++ x :: ys).modify xs.length f = xs ++ f x :: ys := by
  induction xs with
  | nil => rfl
  | cons a xs ih => simp [ih]

/-- The value that a statement adds as the value `id` of a block. -/
def Line.Statement.toValue (s : Line.Statement) (id : ValueId) (block : BlockId) : Value :=
  match s.body with
  | .instr op targets args => { id, name := s.name.getD [], block, op, args, targets }
  | .phi edges => { id, name := s.name.getD [], block, op := .phi, edges }

/-- The block with one more member. -/
def Block.push (b : Block) (v : Value) : Block :=
  if v.isPhi then { b with phis := b.phis ++ [v.id] } else { b with instrs := b.instrs ++ [v.id] }

theorem Block.foldl_push_phis {vs : List Value} (h : ∀ v ∈ vs, v.isPhi = true) (b : Block) :
    vs.foldl push b = { b with phis := b.phis ++ vs.map (·.id) } := by
  induction vs generalizing b with
  | nil => simp
  | cons v vs ih =>
    obtain ⟨hv, hvs⟩ := List.forall_mem_cons.mp h
    rw [List.foldl_cons, ih hvs, push, if_pos hv]
    simp

theorem Block.foldl_push_instrs {vs : List Value} (h : ∀ v ∈ vs, v.isPhi = false) (b : Block) :
    vs.foldl push b = { b with instrs := b.instrs ++ vs.map (·.id) } := by
  induction vs generalizing b with
  | nil => simp
  | cons v vs ih =>
    obtain ⟨hv, hvs⟩ := List.forall_mem_cons.mp h
    rw [List.foldl_cons, ih hvs, push, if_neg (by simp [hv])]
    simp

/-- The function with one more value. -/
def Func.push (fn : Func) (v : Value) : Func :=
  { fn with values := fn.values ++ [v], blocks := fn.blocks.modify v.block.toNat (·.push v) }

namespace Builder

theorem addValue_eq_ok_iff {b b' : Builder} {v : ValueId → Value} {place : ValueId → Block → Block}
    {id : ValueId} :
    b.addValue v place = .ok (id, b') ↔
      b.func.hasBlock b.current = true ∧ id = b.func.values.length ∧
        b' = { b with func := { b.func with
          values := b.func.values ++ [v b.func.values.length]
          blocks := b.func.blocks.modify b.current.toNat (place b.func.values.length) } } := by
  have hno : b.func.hasBlock b.current = true → b.current ≠ noBlock := by
    intro h hc
    rw [hc] at h
    simp [Func.hasBlock, noBlock] at h
  unfold addValue
  by_cases hc : b.current = noBlock
  · simp only [if_pos hc]
    constructor
    · intro h
      cases h
    · rintro ⟨h, -⟩
      exact absurd hc (hno h)
  · by_cases hb : b.func.hasBlock b.current = true
    · simp [hc, hb, eq_comm]
    · simp [hc, hb]

end Builder

namespace Source

open Builder Line

theorem addBody_eq_ok_iff {b b' : Builder} {body : Body} {id : ValueId} :
    addBody body b = .ok (id, b') ↔
      b.func.hasBlock b.current = true ∧
      (∀ op targets args, body = .instr op targets args → op ≠ .phi) ∧
      id = b.func.values.length ∧
      b' = ⟨b.func.push (Statement.toValue ⟨none, body⟩ b.func.values.length b.current),
        b.current⟩ := by
  cases body with
  | instr op targets args =>
    simp only [addBody, addInstr]
    by_cases hop : op = .phi
    · simp [hop]
    · have hphi : (op == Opcode.phi) = false := by simpa using hop
      simp only [if_neg hop, addValue_eq_ok_iff]
      simp [hop, Func.push, Block.push, Statement.toValue, Value.isPhi, hphi]
  | phi edges =>
    simp only [addBody, addPhi, addValue_eq_ok_iff]
    simp [Func.push, Block.push, Statement.toValue, Value.isPhi]

theorem setName_push {fn : Func} {cur : BlockId} {v : Value} (name : Text) :
    setName ⟨fn.push v, cur⟩ fn.values.length name
      = .ok ⟨fn.push { v with name := name }, cur⟩ := by
  have hvalue : (fn.push v).hasValue fn.values.length = true := by simp [Func.hasValue, Func.push]
  rw [setName, if_pos hvalue]
  simp only [modifyValue, Func.push, Int.toNat_natCast, modify_length_append]
  rfl

theorem addStatement_eq_ok_iff {names : Names} {b b' : Builder} {s : Statement} :
    addStatement names s b = .ok () b' ↔
      b.func.hasBlock b.current = true ∧
      (∀ op targets args, s.body = .instr op targets args → op ≠ .phi) ∧
      (∀ name, s.name = some name → (names.value? name).getD 0 = b.func.values.length) ∧
      b' = ⟨b.func.push (s.toValue b.func.values.length b.current), b.current⟩ := by
  obtain ⟨name, body⟩ := s
  rw [addStatement, run_bind_eq_ok]
  simp only [call_eq_ok, addBody_eq_ok_iff]
  cases name with
  | none =>
    constructor
    · rintro ⟨id, b₁, ⟨hblock, hop, -, rfl⟩, hb⟩
      cases hb
      exact ⟨hblock, hop, by simp, rfl⟩
    · rintro ⟨hblock, hop, -, rfl⟩
      exact ⟨_, _, ⟨hblock, hop, rfl, rfl⟩, rfl⟩
  | some name =>
    have hnamed : Statement.toValue ⟨some name, body⟩ b.func.values.length b.current
        = { Statement.toValue ⟨none, body⟩ b.func.values.length b.current with name := name } := by
      cases body <;> rfl
    constructor
    · rintro ⟨id, b₁, ⟨hblock, hop, rfl, rfl⟩, hb⟩
      dsimp only at hb
      split at hb
      · cases hb
      · next he =>
        rw [call_eq_ok, setName_push] at hb
        cases hb
        rw [hnamed]
        refine ⟨hblock, hop, ?_, rfl⟩
        rintro _ ⟨⟩
        exact not_not.mp he
    · rintro ⟨hblock, hop, hid, rfl⟩
      refine ⟨_, _, ⟨hblock, hop, rfl, rfl⟩, ?_⟩
      rw [hnamed]
      dsimp only
      rw [if_neg (not_not.mpr (hid name rfl)), call_eq_ok, setName_push]
      rfl

end Source

namespace Line

/-- What a line defines: a label, or a value with or without a name. -/
inductive Head where
  | label (name : Text)
  | value (name : Option Text)
  deriving DecidableEq

def Head.label? : Head → Option Text
  | .label name => some name
  | .value _ => none

/-- Of a value, its name if it has one. -/
def Head.value? : Head → Option (Option Text)
  | .label _ => none
  | .value name => some name

def head (tokens : List Text) : Head :=
  match Token.label? tokens with
  | some name => .label name
  | none => .value (result tokens).1

namespace Names

/-- The names after one more line, of which a value gets the number `next`. -/
def add (names : Names) (next : ValueId) : Head → Names × ValueId
  | .label name => ({ names with labels := names.labels ++ [name] }, next)
  | .value none => (names, next + 1)
  | .value (some name) => ({ names with values := (name, next) :: names.values }, next + 1)

def addAll (names : Names) (next : ValueId) : List Head → Names
  | [] => names
  | h :: rest => (names.add next h).1.addAll (names.add next h).2 rest

theorem labels_addAll (names : Names) (next : ValueId) (hs : List Head) :
    (names.addAll next hs).labels = names.labels ++ hs.filterMap Head.label? := by
  induction hs generalizing names next with
  | nil => simp [addAll]
  | cons h hs ih =>
    rw [addAll, ih]
    match h with
    | .label name => simp [add, Head.label?]
    | .value none => simp [add, Head.label?, List.filterMap_cons]
    | .value (some name) => simp [add, Head.label?, List.filterMap_cons]

theorem values_addAll (names : Names) (n : Nat) (hs : List Head) :
    (names.addAll n hs).values = (((hs.filterMap Head.value?).zipIdx n).filterMap
      fun p => p.1.map (·, (p.2 : ValueId))).reverse ++ names.values := by
  induction hs generalizing names n with
  | nil => simp [addAll]
  | cons h hs ih =>
    match h with
    | .label name => simp [addAll, add, Head.value?, List.filterMap_cons, ih]
    | .value none =>
      have hnext := ih names (n + 1)
      simp [addAll, add, Head.value?, ← hnext]
    | .value (some name) =>
      have hnext := ih (names.add n (.value (some name))).1 (n + 1)
      simp only [addAll, List.filterMap_cons, Head.value?, List.zipIdx_cons]
      refine hnext.trans ?_
      simp [add]

/-- All names may be used, and none stands for two things. -/
structure Good (names : Names) : Prop where
  label_name : ∀ l ∈ names.labels, Token.isName l = true
  labels_nodup : names.labels.Nodup
  value_name : ∀ p ∈ names.values, Token.isName p.1 = true
  values_nodup : (names.values.map (·.1)).Nodup

theorem good_nil : Good {} := ⟨nofun, .nil, nofun, .nil⟩

theorem good_add_label_iff {names : Names} {next : ValueId} {label : Text} :
    (names.add next (.label label)).1.Good ↔
      names.Good ∧ Token.isName label = true ∧ label ∉ names.labels := by
  constructor
  · rintro ⟨hl, hlnd, hv, hvnd⟩
    obtain ⟨hnd, -, hdis⟩ := List.nodup_append.mp hlnd
    refine ⟨⟨fun l hm => hl l (List.mem_append_left _ hm), hnd, hv, hvnd⟩, ?_, fun hm => ?_⟩
    · exact hl label (List.mem_append_right _ (List.mem_singleton_self label))
    · exact hdis label hm label (List.mem_singleton_self label) rfl
  · rintro ⟨⟨hl, hlnd, hv, hvnd⟩, hname, hnew⟩
    refine ⟨fun l hm => ?_, List.nodup_append.mpr ⟨hlnd, List.nodup_singleton label, ?_⟩, hv, hvnd⟩
    · rcases List.mem_append.mp hm with hm | hm
      · exact hl l hm
      · exact List.mem_singleton.mp hm ▸ hname
    · rintro a ha b hb rfl
      exact hnew (List.mem_singleton.mp hb ▸ ha)

theorem good_add_named_iff {names : Names} {next : ValueId} {name : Text} :
    (names.add next (.value (some name))).1.Good ↔
      names.Good ∧ Token.isName name = true ∧ name ∉ names.values.map (·.1) := by
  constructor
  · rintro ⟨hl, hlnd, hv, hvnd⟩
    obtain ⟨hnew, hnd⟩ := List.nodup_cons.mp hvnd
    exact ⟨⟨hl, hlnd, fun p hp => hv p (List.mem_cons_of_mem _ hp), hnd⟩,
      hv (name, next) List.mem_cons_self, hnew⟩
  · rintro ⟨⟨hl, hlnd, hv, hvnd⟩, hname, hnew⟩
    exact ⟨hl, hlnd, List.forall_mem_cons.mpr ⟨hname, hv⟩, List.nodup_cons.mpr ⟨hnew, hvnd⟩⟩

theorem Good.of_add {names : Names} {next : ValueId} {h : Head}
    (hg : (names.add next h).1.Good) : names.Good := by
  match h with
  | .label name => exact (good_add_label_iff.mp hg).1
  | .value none => exact hg
  | .value (some name) => exact (good_add_named_iff.mp hg).1

theorem Good.of_addAll {names : Names} {next : ValueId} {hs : List Head}
    (hg : (names.addAll next hs).Good) : names.Good := by
  induction hs generalizing names next with
  | nil => exact hg
  | cons h hs ih => exact (ih hg).of_add

theorem Good.value?_eq_some_iff {names : Names} (hg : names.Good) {name : Text} {id : ValueId} :
    names.value? name = some id ↔ (name, id) ∈ names.values := by
  rw [value?, List.lookup_eq_some_iff]
  constructor
  · rintro ⟨pre, post, h, -⟩
    rw [h]
    exact List.mem_append_right _ List.mem_cons_self
  · intro hm
    obtain ⟨pre, post, h⟩ := List.append_of_mem hm
    refine ⟨pre, post, h, fun p hp => ?_⟩
    have hnd := hg.values_nodup
    rw [h, List.map_append, List.map_cons, List.nodup_append] at hnd
    have hne := hnd.2.2 p.1 (List.mem_map_of_mem hp) name List.mem_cons_self
    simpa using hne.symm

theorem Good.block?_getElem {names : Names} (hg : names.Good) {i : Nat} {label : Text}
    (hi : names.labels[i]? = some label) : names.block? label = some (i : BlockId) := by
  obtain ⟨hlt, rfl⟩ := List.getElem?_eq_some_iff.mp hi
  have hidx : names.labels.idxOf? names.labels[i] = some i :=
    List.idxOf?_eq_some_iff.mpr ⟨hlt, rfl, fun j hj he =>
      Nat.ne_of_lt hj (hg.labels_nodup.getElem_inj_iff.mp he)⟩
  rw [block?, hidx]
  rfl

theorem value?_isSome_iff {names : Names} {name : Text} :
    (names.value? name).isSome = true ↔ name ∈ names.values.map (·.1) := by
  rw [value?, List.lookup_isSome_iff, List.mem_map]
  constructor
  · rintro ⟨p, hp, he⟩
    exact ⟨p, hp, (beq_iff_eq.mp he).symm⟩
  · rintro ⟨p, hp, rfl⟩
    exact ⟨p, hp, beq_self_eq_true p.1⟩

end Names

end Line

namespace Source

open Line

theorem define_label {names : Names} {next : ValueId} {tokens : List Text} {label : Text}
    (h : Token.label? tokens = some label) {r : Names × ValueId} :
    define names next tokens = .ok r ↔
      (Token.isName label = true ∧ label ∉ names.labels) ∧ r = names.add next (.label label) := by
  simp only [define, h]
  by_cases hname : Token.isName label = true <;> by_cases hnew : label ∈ names.labels <;>
    simp [hname, hnew, Names.add, eq_comm]

theorem define_value {names : Names} {next : ValueId} {tokens : List Text}
    (h : Token.label? tokens = none) {r : Names × ValueId} :
    define names next tokens = .ok r ↔ names.labels ≠ [] ∧
      (∀ name, (result tokens).1 = some name →
        Token.isName name = true ∧ name ∉ names.values.map (·.1)) ∧
      r = names.add next (.value (result tokens).1) := by
  simp only [define, h, List.isEmpty_iff]
  by_cases hin : names.labels = []
  · simp [hin]
  · cases (result tokens).1 with
    | none => simp [hin, Names.add, @eq_comm _ r]
    | some name =>
      simp only [if_neg hin, Option.some.injEq, forall_eq', ← Names.value?_isSome_iff]
      by_cases hname : Token.isName name = true <;>
        by_cases hnew : (names.value? name).isSome = true <;>
        simp [hin, hname, hnew, Names.add, @eq_comm _ r]

theorem define_eq_ok_iff {names : Names} (hg : names.Good) {next : ValueId} {tokens : List Text}
    {r : Names × ValueId} :
    define names next tokens = .ok r ↔ r = names.add next (head tokens) ∧ r.1.Good ∧
      (names.labels = [] → ∀ name, head tokens ≠ .value name) := by
  cases h : Token.label? tokens with
  | some label =>
    have hhead : head tokens = .label label := by simp [head, h]
    rw [define_label h, hhead]
    constructor
    · rintro ⟨hnew, rfl⟩
      exact ⟨rfl, Names.good_add_label_iff.mpr ⟨hg, hnew⟩, nofun⟩
    · rintro ⟨rfl, hgood, -⟩
      exact ⟨(Names.good_add_label_iff.mp hgood).2, rfl⟩
  | none =>
    have hhead : head tokens = .value (result tokens).1 := by simp [head, h]
    rw [define_value h, hhead]
    constructor
    · rintro ⟨hin, hnew, rfl⟩
      refine ⟨rfl, ?_, fun hnil => absurd hnil hin⟩
      cases hr : (result tokens).1 with
      | none => exact hg
      | some name => exact Names.good_add_named_iff.mpr ⟨hg, hnew name hr⟩
    · rintro ⟨rfl, hgood, hin⟩
      refine ⟨fun hnil => hin hnil _ rfl, fun name hr => ?_, rfl⟩
      rw [hr] at hgood
      exact (Names.good_add_named_iff.mp hgood).2

theorem defineAll_eq_ok_iff {file : Text} {lines : List Numbered} {names names' : Names}
    (hg : names.Good) {next : ValueId} :
    defineAll file names next lines = .ok names' ↔
      names' = names.addAll next (lines.map fun l => head l.tokens) ∧ names'.Good ∧
        (names.labels = [] → ∀ l ∈ lines.head?, ∀ name, head l.tokens ≠ .value name) := by
  induction lines generalizing names next with
  | nil =>
    constructor
    · rintro ⟨⟩
      exact ⟨rfl, hg, nofun⟩
    · rintro ⟨rfl, -, -⟩
      rfl
  | cons l lines ih =>
    have hstep : defineAll file names next (l :: lines) = .ok names' ↔
        ∃ r, define names next l.tokens = .ok r ∧ defineAll file r.1 r.2 lines = .ok names' := by
      rw [defineAll]
      cases define names next l.tokens <;> simp
    rw [hstep]
    simp only [define_eq_ok_iff hg, List.map_cons, Names.addAll, List.head?_cons,
      Option.mem_def, Option.some.injEq, forall_eq']
    constructor
    · rintro ⟨r, ⟨rfl, hgood, hfirst⟩, hrest⟩
      obtain ⟨hnames, hall, -⟩ := (ih hgood).mp hrest
      exact ⟨hnames, hall, hfirst⟩
    · rintro ⟨rfl, hall, hfirst⟩
      have hgood := hall.of_addAll
      refine ⟨_, ⟨rfl, hgood, hfirst⟩, (ih hgood).mpr ⟨rfl, hall, fun hnil => ?_⟩⟩
      -- The first line is a label, if there was none before.
      cases hhead : head l.tokens with
      | label label => simp [hhead, Names.add] at hnil
      | value name =>
        refine absurd hhead (hfirst ?_ name)
        cases name <;> simpa [hhead, Names.add] using hnil

/-! Functions -/

/-- The block that a label starts out as. -/
def labelled (label : Text) (index : Nat) : Block := { id := index, name := label }

/-- The builder that the lines of a function are read into. -/
def startOf (name : Text) (labels : List Text) : Builder :=
  ⟨⟨name, if labels.isEmpty then noBlock else 0, labels.zipIdx.map fun p => labelled p.1 p.2, []⟩,
    noBlock⟩

theorem foldl_addBlock (name : Text) (labels : List Text) :
    labels.foldl (fun b label => (b.addBlock label).2) (Builder.new name)
      = startOf name labels := by
  induction labels using List.reverseRecOn with
  | nil => rfl
  | append_singleton labels label ih =>
    rw [List.foldl_append, ih]
    by_cases hnil : labels = []
    · subst hnil
      rfl
    · simp [startOf, Builder.addBlock, hnil, List.zipIdx_append, labelled, noBlock]

theorem leads_addLines {file : Text} {names : Names} {lines : List Numbered} {name : Text}
    {labels : List Text} {b : Builder}
    (h : lines.foldlM (addLine file names) (startOf name labels) = .ok b) :
    (Builder.new name).Leads b := by
  rw [← foldl_addBlock] at h
  exact foldlM_preserves (P := (Builder.new name).Leads)
    (fun _ _ _ _ hl hs => hl.trans (leads_addLine hs)) (leads_addBlocks _ _) h

theorem Draft.toFunc_eq_ok_iff {file : Text} {d : Draft} {fn : Func} :
    d.toFunc file = .ok fn ↔ ∃ names b, defineAll file {} 0 d.lines.reverse = .ok names ∧
      names.labels ≠ [] ∧
      d.lines.reverse.foldlM (addLine file names) (startOf d.name names.labels) = .ok b ∧
      b.finish = .ok fn := by
  unfold Draft.toFunc
  simp only [bind_eq_ok, foldl_addBlock]
  constructor
  · rintro ⟨names, hnames, h⟩
    split at h
    · cases h
    · next hne =>
      obtain ⟨b, hb, h⟩ := bind_eq_ok.mp h
      refine ⟨names, b, hnames, by simpa using hne, hb, ?_⟩
      split at h
      · next hf => rw [hf, ← Except.ok.inj h]
      · cases h
  · rintro ⟨names, b, hnames, hne, hb, hf⟩
    refine ⟨names, hnames, ?_⟩
    rw [if_neg (by simpa using hne), bind_eq_ok]
    refine ⟨b, hb, ?_⟩
    rw [hf]
    rfl

/-! Sources -/

/-- The line that a function starts with. -/
def Draft.header (d : Draft) : Numbered := ⟨d.number, ["func", d.name]⟩

/-- The lines of a function from first to last. -/
def Draft.source (d : Draft) : List Numbered := d.header :: d.lines.reverse

/-- None of the lines starts another function. -/
def IsBody (lines : List Numbered) : Prop :=
  ∀ l ∈ lines, l.tokens.head? ≠ some (Text.ofString "func")

theorem foldlM_step_body {file : Text} {body : List Numbered} (hbody : IsBody body)
    (done : List Func) (d : Draft) :
    body.foldlM (Progress.step file) ⟨done, some d⟩
      = .ok ⟨done, some { d with lines := body.reverse ++ d.lines }⟩ := by
  induction body generalizing d with
  | nil => rfl
  | cons l body ih =>
    obtain ⟨hl, hbody⟩ := List.forall_mem_cons.mp hbody
    rw [List.foldlM_cons, Progress.step, if_neg hl]
    simp only [bind, Except.bind]
    rw [ih hbody]
    simp

theorem foldlM_step_source {file : Text} {d : Draft} (hbody : IsBody d.lines) (p : Progress) :
    d.source.foldlM (Progress.step file) p = (p.close file).map fun done => ⟨done, some d⟩ := by
  have hstep : p.step file d.header
      = (p.close file).map fun done => ⟨done, some { name := d.name, number := d.number }⟩ := by
    simp [Progress.step, Draft.header]
  have hrev : IsBody d.lines.reverse := fun l hl => hbody l (List.mem_reverse.mp hl)
  rw [Draft.source, List.foldlM_cons, hstep]
  cases p.close file with
  | error e => rfl
  | ok done => simp [Except.map, bind, Except.bind, foldlM_step_body hrev]

/-- The lines of a source are read function by function. -/
theorem foldlM_step_sources {file : Text} {ds : List Draft} (hbody : ∀ d ∈ ds, IsBody d.lines)
    {p : Progress} {fns : List Func} :
    ((ds.flatMap Draft.source).foldlM (Progress.step file) p >>= Progress.close file) = .ok fns ↔
      ∃ done new, p.close file = .ok done ∧
        List.Forall₂ (fun d fn => Draft.toFunc file d = .ok fn) ds new ∧
        fns = new.reverse ++ done := by
  induction ds generalizing p with
  | nil => simp
  | cons d ds ih =>
    obtain ⟨hd, hds⟩ := List.forall_mem_cons.mp hbody
    have hclose : ∀ done, Progress.close file ⟨done, some d⟩ = (d.toFunc file).map (· :: done) :=
      fun _ => rfl
    rw [List.flatMap_cons, List.foldlM_append, foldlM_step_source hd, bind_assoc, bind_eq_ok]
    simp only [map_eq_ok, ih hds]
    constructor
    · rintro ⟨_, ⟨done, hp, rfl⟩, _, new, hd', hnew, rfl⟩
      obtain ⟨fn, hfn, rfl⟩ := map_eq_ok.mp ((hclose done).symm.trans hd')
      exact ⟨done, fn :: new, hp, .cons hfn hnew, by simp⟩
    · rintro ⟨done, _, hp, hall, rfl⟩
      obtain ⟨fn, new, hfn, hnew, rfl⟩ := List.forall₂_cons_left_iff.mp hall
      refine ⟨_, ⟨done, hp, rfl⟩, fn :: done, new, ?_, hnew, by simp⟩
      rw [hclose, hfn]
      rfl

theorem cut_eq_false_iff {src : Text} :
    (readable src).2 = false ↔ (readable src).1 = rawLines src := by
  have hsub : ((rawLines src).takeWhile (·.length < maxLine)).Sublist (rawLines src) :=
    List.takeWhile_sublist _
  simp only [readable, decide_eq_false_iff_not, Nat.not_lt]
  exact ⟨hsub.eq_of_length_le, fun he => Nat.le_of_eq (congrArg List.length he.symm)⟩

/-- What a source is read as once its lines are, with or without a line that is too long behind
them. -/
def Progress.finish (file : Text) (cut : Bool) (p : Progress) : Except Error (List Func) :=
  if cut then .error .longLine else (p.close file).map List.reverse

theorem parse_eq (file src : Text) :
    parse file src = ((numbered (readable src).1).foldlM (Progress.step file) {} >>=
      Progress.finish file (readable src).2) := by
  unfold parse
  generalize readable src = r
  obtain ⟨lines, cut⟩ := r
  refine bind_congr fun p => ?_
  cases cut with
  | true => rfl
  | false =>
    show (p.close file >>= fun done => pure done.reverse) = (p.close file).map List.reverse
    cases p.close file <;> rfl

theorem parse_eq_ok_iff {file src : Text} {fns : List Func} :
    parse file src = .ok fns ↔ (∀ l ∈ rawLines src, l.length < maxLine) ∧
      ((numbered (rawLines src)).foldlM (Progress.step file) {} >>= Progress.close file)
        = .ok fns.reverse := by
  have hfinish : ∀ (cut : Bool) (p : Progress), p.finish file cut = .ok fns ↔
      cut = false ∧ p.close file = .ok fns.reverse := by
    intro cut p
    cases cut <;> simp [Progress.finish, map_eq_ok, List.reverse_eq_iff]
  have hall : (readable src).1 = rawLines src ↔ ∀ l ∈ rawLines src, l.length < maxLine := by
    simp only [readable, List.takeWhile_eq_self_iff, decide_eq_true_eq]
  rw [parse_eq, bind_eq_ok, bind_eq_ok, ← hall]
  simp only [hfinish, cut_eq_false_iff]
  constructor
  · rintro ⟨p, hp, hread, hclose⟩
    exact ⟨hread, p, hread ▸ hp, hclose⟩
  · rintro ⟨hread, p, hp, hclose⟩
    exact ⟨p, hread.symm ▸ hp, hread, hclose⟩

/-- What was read is made of functions, each a header and lines that are none. -/
theorem exists_drafts {file : Text} {lines : List Numbered} {p p' : Progress}
    (h : lines.foldlM (Progress.step file) p = .ok p') :
    ∃ (body : List Numbered) (ds : List Draft), lines = body ++ ds.flatMap Draft.source ∧
      IsBody body ∧ (p.draft = none → body = []) ∧ ∀ d ∈ ds, IsBody d.lines := by
  induction lines generalizing p with
  | nil => exact ⟨[], [], rfl, by simp [IsBody], fun _ => rfl, by simp⟩
  | cons l lines ih =>
    rw [List.foldlM_cons] at h
    obtain ⟨p₁, hstep, h⟩ := bind_eq_ok.mp h
    obtain ⟨body, ds, rfl, hbody, hnone, hds⟩ := ih h
    unfold Progress.step at hstep
    split at hstep
    · next hfunc =>
      split at hstep
      · next first name htokens =>
        refine ⟨[], { name, number := l.number, lines := body.reverse } :: ds, ?_, by simp [IsBody],
          fun _ => rfl, List.forall_mem_cons.mpr ⟨?_, hds⟩⟩
        · rw [htokens] at hfunc
          obtain rfl : first = Text.ofString "func" := by simpa using hfunc
          simp [Draft.source, Draft.header, ← htokens]
        · exact fun l hl => hbody l (List.mem_reverse.mp hl)
      · cases hstep
    · next hfunc =>
      split at hstep
      · cases hstep
      · next d hd =>
        refine ⟨l :: body, ds, rfl, List.forall_mem_cons.mpr ⟨hfunc, hbody⟩, ?_, hds⟩
        intro hno
        rw [hd] at hno
        cases hno

/-- A source is dealt out to its functions, each a header and the lines behind it. -/
theorem exists_drafts_of_parse {file src : Text} {fns : List Func} (h : parse file src = .ok fns) :
    ∃ ds : List Draft, numbered (rawLines src) = ds.flatMap Draft.source ∧
      (∀ d ∈ ds, IsBody d.lines) ∧
      List.Forall₂ (fun d fn => Draft.toFunc file d = .ok fn) ds fns := by
  obtain ⟨-, h⟩ := parse_eq_ok_iff.mp h
  obtain ⟨p, hp, -⟩ := bind_eq_ok.mp h
  obtain ⟨body, ds, hlines, -, hnone, hds⟩ := exists_drafts hp
  rw [hnone rfl, List.nil_append] at hlines
  rw [hlines, foldlM_step_sources hds] at h
  obtain ⟨_, new, ⟨⟩, hnew, he⟩ := h
  rw [List.append_nil, List.reverse_inj] at he
  exact ⟨ds, hlines, hds, he ▸ hnew⟩

end Source

end TypeFlow
