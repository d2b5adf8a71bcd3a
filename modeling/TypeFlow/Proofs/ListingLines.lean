import TypeFlow.Proofs.LiteralText
import TypeFlow.Proofs.Renumbering

/-! The lines of a listing, and the tokens that they fall into. -/

namespace TypeFlow

theorem forall₂_flatMap {α β γ : Type} {R : β → γ → Prop} {f : α → List β} {g : α → List γ}
    {l : List α} (h : ∀ x ∈ l, List.Forall₂ R (f x) (g x)) :
    List.Forall₂ R (l.flatMap f) (l.flatMap g) := by
  induction l with
  | nil => exact .nil
  | cons x l ih =>
    obtain ⟨hx, hl⟩ := List.forall_mem_cons.mp h
    exact List.rel_append hx (ih hl)

namespace Opcode

theorem word_text {op : Opcode} (h : op.isValid = true) : Token.Word op.text := by
  have hall : ∀ op ∈ all, op.text ≠ [] ∧ Token.Plain op.text := by decide +kernel
  exact ⟨(hall op (mem_all h)).1, (hall op (mem_all h)).2⟩

theorem text_ne_func {op : Opcode} (h : op.isValid = true) : op.text ≠ "func" := by
  have hall : ∀ op ∈ all, op.text ≠ "func" := by decide +kernel
  exact hall op (mem_all h)

theorem label?_text {op : Opcode} (h : op.isValid = true) : Token.label? [op.text] = none := by
  have hall : ∀ op ∈ all, Token.label? [op.text] = none := by decide +kernel
  exact hall op (mem_all h)

end Opcode

theorem Value.label_ne_nil (v : Value) : v.label ≠ [] := by
  unfold label
  split
  · exact fun h => absurd (List.append_eq_nil_iff.mp h).1 (by decide)
  · next h => simpa using h

theorem Block.label_ne_nil (b : Block) : b.label ≠ [] := by
  unfold label
  split
  · exact fun h => absurd (List.append_eq_nil_iff.mp h).1 (by decide)
  · next h => simpa using h

namespace Func

def operandText (fn : Func) : Operand → Text
  | .value id => (fn.value? id).elim [] (·.label)
  | .literal lit => lit.text

def blockLabel (fn : Func) (i : BlockId) : Text := (fn.block? i).elim [] (·.label)

def edgeText (fn : Func) (e : Incoming) : Text :=
  "[" ++ fn.blockLabel e.pred ++ ": " ++ fn.operandText e.arg ++ "]"

def itemTexts (fn : Func) (v : Value) : List Text :=
  if v.isPhi then v.edges.map fn.edgeText
  else v.args.map fn.operandText ++ v.targets.map fn.blockLabel

def valueText (fn : Func) (v : Value) : Text :=
  (if v.op.hasOutput then v.label ++ " = " else []) ++ v.op.text ++ itemList (fn.itemTexts v)

def blockLines (fn : Func) (b : Block) : List Text :=
  (b.label ++ ":") :: (fn.membersOf b).map fun v => "\t" ++ fn.valueText v

/-- The lines of a listing. -/
def lines (fn : Func) : List Text := ("func " ++ fn.name) :: fn.blocks.flatMap fn.blockLines

def notedBlock (fn : Func) (block : Block → Text) (value : Value → Text) (b : Block) : List Text :=
  withComment (b.label ++ ":") (block b) ::
    (fn.membersOf b).map fun v => withComment ("\t" ++ fn.valueText v) (value v)

/-- The lines of a listing with comments on blocks and values. -/
def notedLines (fn : Func) (block : Block → Text) (value : Value → Text) : List Text :=
  ("func " ++ fn.name) :: fn.blocks.flatMap (fn.notedBlock block value)

theorem label_renumberedValue (fn : Func) {v : Value} (hout : v.op.hasOutput = true) :
    (fn.renumberedValue v).label = v.label := by
  have hname : (fn.renumberedValue v).name = v.label := by simp [renumberedValue, hout]
  rw [Value.label, hname, if_neg (by simpa using v.label_ne_nil)]

theorem label_renumberedBlock (fn : Func) (b : Block) : (fn.renumberedBlock b).label = b.label := by
  have hname : (fn.renumberedBlock b).name = b.label := rfl
  rw [Block.label, hname, if_neg (by simpa using b.label_ne_nil)]

namespace Finished

variable {fn : Func}

theorem valueName?_eq (h : fn.Finished) {id : ValueId} {v : Value} (hv : fn.value? id = some v) :
    fn.valueName? id = some v.label := by
  rw [valueName?, hv, Value.label, h.wellFormed.value_id hv]
  rfl

theorem operandText?_eq (h : fn.Finished) {o : Operand} (ho : fn.SoundOperand o) :
    fn.operandText? o = some (fn.operandText o) := by
  cases o with
  | literal lit => rfl
  | value id =>
    obtain ⟨v, hv, -⟩ := ho
    rw [operandText?, h.valueName?_eq hv, operandText, hv]
    rfl

theorem targetText?_eq {i : BlockId} (hi : fn.hasBlock i = true) :
    fn.targetText? i = some (fn.blockLabel i) := by
  obtain ⟨b, hb⟩ := hasBlock_iff.mp hi
  rw [targetText?, blockLabel, hb]
  rfl

theorem incomingText?_eq (h : fn.Finished) {v : Value} (hv : v ∈ fn.values) (hp : v.isPhi = true)
    {e : Incoming} (he : e ∈ v.edges) : fn.incomingText? e = some (fn.edgeText e) := by
  obtain ⟨⟨w, hw, -⟩, ho⟩ := (h.sound.edges v hv hp).1 e he
  obtain ⟨b, hb, -⟩ := Option.bind_eq_some_iff.mp hw
  rw [incomingText?, h.operandText?_eq ho, edgeText, blockLabel, hb]
  rfl

theorem itemTexts?_eq (h : fn.Finished) {v : Value} (hv : v ∈ fn.values) :
    fn.itemTexts? v = some (fn.itemTexts v) := by
  unfold itemTexts? itemTexts
  split
  · next hp => exact mapM_eq_pure fun e he => h.incomingText?_eq hv hp he
  · next hp =>
    have hinstr := h.sound.instr v hv (Bool.not_eq_true _ ▸ hp)
    have hargs := mapM_eq_pure fun o ho => h.operandText?_eq (hinstr.operands o ho)
    have htargets := mapM_eq_pure fun t ht => targetText?_eq (hinstr.targets t ht)
    rw [hargs, htargets]
    rfl

theorem valueText?_eq (h : fn.Finished) {v : Value} (hv : v ∈ fn.values) :
    fn.valueText? v = some (fn.valueText v) := by
  have hresult : fn.resultText? v = some (if v.op.hasOutput then v.label ++ " = " else []) := by
    rw [resultText?, h.valueName?_eq (h.value?_of_mem hv)]
    cases v.op.hasOutput <;> rfl
  rw [valueText?, hresult, h.itemTexts?_eq hv]
  rfl

theorem blockText?_eq (h : fn.Finished) {notes : Notes} {comment : Value → Text}
    (hnotes : ∀ v ∈ fn.values, notes.value v = some (comment v)) {b : Block} (hb : b ∈ fn.blocks) :
    fn.blockText? notes b =
      some ((fn.notedBlock notes.block comment b).flatMap (· ++ Text.ofString "\n")) := by
  have hline : ∀ v ∈ fn.membersOf b, (fn.valueLine? notes ∘ (·.id)) v
      = some (withComment ("\t" ++ fn.valueText v) (comment v) ++ "\n") := by
    intro v hv
    have hmem := h.mem_printed.mp (List.mem_flatMap.mpr ⟨b, hb, hv⟩)
    rw [Function.comp_apply, valueLine?, h.value?_of_mem hmem]
    simp only [Option.bind_eq_bind, Option.bind_some, h.valueText?_eq hmem, hnotes v hmem]
    rfl
  rw [blockText?, ← h.map_id_membersOf hb, List.mapM_map, mapM_eq_pure hline, notedBlock,
    List.flatMap_cons, List.flatMap_map]
  rfl

theorem annotated?_eq (h : fn.Finished) (notes : Notes) (comment : Value → Text)
    (hnotes : ∀ v ∈ fn.values, notes.value v = some (comment v)) :
    fn.annotated? notes =
      some ((fn.notedLines notes.block comment).flatMap (· ++ Text.ofString "\n")) := by
  have hblocks := mapM_eq_pure fun b hb => h.blockText?_eq hnotes hb
  rw [annotated?, hblocks, notedLines, List.flatMap_cons, List.flatMap_assoc, List.flatMap_def]
  rfl

theorem listing?_eq (h : fn.Finished) :
    fn.listing? = some (fn.lines.flatMap (· ++ Text.ofString "\n")) :=
  h.annotated?_eq .none (fun _ => []) fun _ _ => rfl

/-! Renumbering does not show. -/

theorem renumbered_blockLabel (fn : Func) (i : BlockId) :
    fn.renumbered.blockLabel i = fn.blockLabel i := by
  rw [blockLabel, renumbered_block?, blockLabel]
  cases fn.block? i with
  | none => rfl
  | some b => exact fn.label_renumberedBlock b

theorem renumbered_operandText (h : fn.Finished) {o : Operand} (ho : fn.SoundOperand o) :
    fn.renumbered.operandText (o.renumber fn.place) = fn.operandText o := by
  cases o with
  | literal lit => rfl
  | value id =>
    obtain ⟨v, hv, hout⟩ := ho
    have hid := h.mem_printOrder (mem_of_lookup hv)
    rw [h.wellFormed.value_id hv] at hid
    rw [Operand.renumber, operandText, h.renumbered_value? hid, operandText, hv]
    exact fn.label_renumberedValue hout

theorem renumbered_valueText (h : fn.Finished) {v : Value} (hv : v ∈ fn.values) :
    fn.renumbered.valueText (fn.renumberedValue v) = fn.valueText v := by
  have hitems : fn.renumbered.itemTexts (fn.renumberedValue v) = fn.itemTexts v := by
    have hphi : (fn.renumberedValue v).isPhi = v.isPhi := rfl
    rw [itemTexts, itemTexts, hphi]
    split
    · next hp =>
      rw [renumberedValue, List.map_map]
      refine List.map_congr_left fun e he => ?_
      obtain ⟨-, ho⟩ := (h.sound.edges v hv hp).1 e he
      simp only [Function.comp_apply, edgeText, Incoming.renumber, h.renumbered_operandText ho,
        renumbered_blockLabel]
    · next hp =>
      have hinstr := h.sound.instr v hv (Bool.not_eq_true _ ▸ hp)
      rw [renumberedValue, List.map_map]
      refine congrArg₂ (· ++ ·) (List.map_congr_left fun o ho => ?_)
        (List.map_congr_left fun t _ => renumbered_blockLabel fn t)
      exact h.renumbered_operandText (hinstr.operands o ho)
  have hop : (fn.renumberedValue v).op = v.op := rfl
  rw [valueText, valueText, hitems, hop]
  cases hout : v.op.hasOutput with
  | false => rfl
  | true => rw [fn.label_renumberedValue hout]

theorem renumbered_lines (h : fn.Finished) : fn.renumbered.lines = fn.lines := by
  have hblock : ∀ b ∈ fn.blocks,
      fn.renumbered.blockLines (fn.renumberedBlock b) = fn.blockLines b := by
    intro b hb
    have hmembers : fn.renumbered.membersOf (fn.renumberedBlock b)
        = (fn.membersOf b).map fn.renumberedValue := by
      have hids : (fn.renumberedBlock b).members = b.members.map fn.place :=
        List.map_append.symm
      rw [membersOf, hids, List.filterMap_map, membersOf, List.map_filterMap]
      refine List.filterMap_congr fun id hid => ?_
      exact h.renumbered_value? (List.mem_flatMap.mpr ⟨b, hb, hid⟩)
    rw [blockLines, hmembers, label_renumberedBlock, List.map_map, blockLines]
    refine congrArg _ (List.map_congr_left fun v hv => ?_)
    have hmem := h.mem_printed.mp (List.mem_flatMap.mpr ⟨b, hb, hv⟩)
    exact congrArg _ (h.renumbered_valueText hmem)
  rw [lines, lines, renumbered, List.flatMap_map]
  exact congrArg _ (List.flatMap_congr hblock)

theorem valid (h : fn.Finished) {v : Value} (hv : v ∈ fn.values) : v.op.isValid = true := by
  by_cases hp : v.isPhi = true
  · rw [beq_iff_eq.mp hp]
    rfl
  · exact (h.sound.instr v hv (Bool.not_eq_true _ ▸ hp)).valid

/-- The operands of all values are checked, wherever they stand. -/
theorem soundOperand (h : fn.Finished) {v : Value} (hv : v ∈ fn.values) {o : Operand}
    (ho : o ∈ v.operands) : fn.SoundOperand o := by
  have hshaped := h.shaped v hv
  unfold Builder.Shaped at hshaped
  split at hshaped
  · next hp =>
    rw [Value.operands, hshaped.1, List.nil_append] at ho
    obtain ⟨e, he, rfl⟩ := List.mem_map.mp ho
    exact ((h.sound.edges v hv hp).1 e he).2
  · next hp =>
    rw [Value.operands, hshaped, List.map_nil, List.append_nil] at ho
    exact (h.sound.instr v hv (Bool.not_eq_true _ ▸ hp)).operands o ho

end Finished

/-- What a function must be named like so that its listing can be read. Values that share a name are
not ruled out. -/
structure Presentable (fn : Func) : Prop where
  name_token : Token.split fn.name = [fn.name]
  name_plain : Text.ascii '#' ∉ fn.name ∧ Text.ascii '\n' ∉ fn.name
  label_name : ∀ b ∈ fn.blocks, Token.isName b.label = true
  labels_nodup : (fn.blocks.map (·.label)).Nodup
  result_name : ∀ v ∈ fn.values, v.op.hasOutput = true →
    Token.isName v.label = true ∧ v.label ≠ "func"
  literal : ∀ v ∈ fn.values, ∀ lit, .literal lit ∈ v.operands → ∃ t, Literal.read t = .ok lit

def edgeTokens (fn : Func) (e : Incoming) : List Text :=
  ["[", fn.blockLabel e.pred ++ ":", fn.operandText e.arg, "]"]

def itemTokens (fn : Func) (v : Value) : List (List Text) :=
  if v.isPhi then v.edges.map fn.edgeTokens
  else (v.args.map fn.operandText ++ v.targets.map fn.blockLabel).map ([·])

def valueTokens (fn : Func) (v : Value) : List Text :=
  (if v.op.hasOutput then [v.label, Text.ofString "="] else []) ++
    v.op.text :: [Text.ofString ","].intercalate (fn.itemTokens v)

def blockTokens (fn : Func) (b : Block) : List (List Text) :=
  [b.label ++ ":"] :: (fn.membersOf b).map fn.valueTokens

/-- The tokens of the lines of a listing behind the first one. -/
def bodyTokens (fn : Func) : List (List Text) := fn.blocks.flatMap fn.blockTokens

namespace Presentable

open Token

variable {fn : Func}

theorem word_operandText (h : fn.Presentable) (hf : fn.Finished) {v : Value} (hv : v ∈ fn.values)
    {o : Operand} (ho : o ∈ v.operands) : Word (fn.operandText o) := by
  cases o with
  | literal lit => exact Literal.word_text (Literal.canonical_iff_read.mpr (h.literal v hv lit ho))
  | value id =>
    obtain ⟨w, hw, hout⟩ := hf.soundOperand hv ho
    rw [operandText, hw]
    exact word_of_isName (h.result_name w (mem_of_lookup hw) hout).1

theorem word_blockLabel (h : fn.Presentable) {i : BlockId} (hi : fn.hasBlock i = true) :
    Word (fn.blockLabel i) := by
  obtain ⟨b, hb⟩ := hasBlock_iff.mp hi
  rw [blockLabel, hb]
  exact word_of_isName (h.label_name b (mem_of_lookup hb))

theorem spells_edgeText (h : fn.Presentable) (hf : fn.Finished) {v : Value} (hv : v ∈ fn.values)
    (hp : v.isPhi = true) {e : Incoming} (he : e ∈ v.edges) :
    Spells (fn.edgeText e) (fn.edgeTokens e) := by
  have hlabel : Word (fn.blockLabel e.pred ++ ":") := by
    obtain ⟨⟨w, hw, -⟩, -⟩ := (hf.sound.edges v hv hp).1 e he
    obtain ⟨b, hb, -⟩ := Option.bind_eq_some_iff.mp hw
    exact (h.word_blockLabel (hasBlock_iff.mpr ⟨b, hb⟩)).append_plain (by decide)
  have harg : Word (fn.operandText e.arg) :=
    h.word_operandText hf hv (List.mem_append_right _ (List.mem_map_of_mem he))
  have hright : Spells (Text.ofString "]") [Text.ofString "]"] :=
    .mark (by decide) (by decide) (by decide) spells_nil
  have hrest : Spells (Text.ascii ' ' :: (fn.operandText e.arg ++ Text.ofString "]"))
      [fn.operandText e.arg, Text.ofString "]"] :=
    .blank (by decide) (by decide) (harg.spells.append hright (boundary_cons (by decide) _))
  have hall := hlabel.spells.append hrest (boundary_cons (by decide) _)
  have htext : fn.edgeText e = Text.ascii '[' :: ((fn.blockLabel e.pred ++ ":")
      ++ Text.ascii ' ' :: (fn.operandText e.arg ++ Text.ofString "]")) := by
    have hcolon : Text.ofString ": " = Text.ofString ":" ++ [Text.ascii ' '] := by decide
    simp only [edgeText, hcolon, List.append_assoc]
    rfl
  rw [htext]
  exact .mark (by decide) (by decide) (by decide) hall

theorem word_item (h : fn.Presentable) (hf : fn.Finished) {v : Value} (hv : v ∈ fn.values)
    (hp : v.isPhi = false) {t : Text}
    (ht : t ∈ v.args.map fn.operandText ++ v.targets.map fn.blockLabel) : Word t := by
  rcases List.mem_append.mp ht with ht | ht
  · obtain ⟨o, ho, rfl⟩ := List.mem_map.mp ht
    exact h.word_operandText hf hv (List.mem_append_left _ ho)
  · obtain ⟨i, hi, rfl⟩ := List.mem_map.mp ht
    exact h.word_blockLabel ((hf.sound.instr v hv hp).targets i hi)

theorem spells_itemTexts (h : fn.Presentable) (hf : fn.Finished) {v : Value} (hv : v ∈ fn.values) :
    List.Forall₂ Spells (fn.itemTexts v) (fn.itemTokens v) := by
  unfold itemTexts itemTokens
  split
  · next hp =>
    rw [List.forall₂_map_left_iff, List.forall₂_map_right_iff, List.forall₂_same]
    exact fun e he => h.spells_edgeText hf hv hp he
  · next hp =>
    rw [List.forall₂_map_right_iff, List.forall₂_same]
    exact fun t ht => (h.word_item hf hv (Bool.not_eq_true _ ▸ hp) ht).spells

theorem spells_valueText (h : fn.Presentable) (hf : fn.Finished) {v : Value} (hv : v ∈ fn.values) :
    Spells (fn.valueText v) (fn.valueTokens v) := by
  have hitems : Spells (itemList (fn.itemTexts v))
      ([Text.ofString ","].intercalate (fn.itemTokens v)) := by
    have hall := h.spells_itemTexts hf hv
    unfold itemList
    split
    · next hnil =>
      rw [List.isEmpty_iff.mp hnil] at hall
      rw [List.forall₂_nil_left_iff.mp hall]
      exact spells_nil
    · exact .blank (by decide) (by decide) (spells_join hall)
  have hboundary : Boundary (itemList (fn.itemTexts v)) := by
    unfold itemList
    split
    · exact boundary_nil
    · exact boundary_cons (by decide) _
  have hop := (Opcode.word_text (hf.valid hv)).spells.append hitems hboundary
  unfold valueText valueTokens
  split
  · next hout =>
    have hlabel := (word_of_isName (h.result_name v hv hout).1).spells
    have heq : Spells (Text.ofString " = " ++ (v.op.text ++ itemList (fn.itemTexts v)))
        (Text.ofString "=" :: v.op.text :: [Text.ofString ","].intercalate (fn.itemTokens v)) :=
      .blank (by decide) (by decide)
        (.mark (by decide) (by decide) (by decide) (.blank (by decide) (by decide) hop))
    have hall := hlabel.append heq (boundary_cons (by decide) _)
    rw [List.append_assoc, List.append_assoc]
    exact hall
  · exact hop

theorem spells_name (h : fn.Presentable) : Spells fn.name [fn.name] := by
  have htoken : IsToken fn.name := isToken_of_mem_split (h.name_token ▸ List.mem_singleton_self _)
  refine ⟨htoken.lexes, fun c hc => ?_⟩
  have hreturn : c ≠ Text.ascii '\r' := by
    rintro rfl
    exact absurd (htoken.not_blank hc) (by decide)
  have hhash := ne_of_mem_of_not_mem hc h.name_plain.1
  have hnewline := ne_of_mem_of_not_mem hc h.name_plain.2
  simp [isEnd, hreturn, hhash, hnewline]

theorem spells_lines (h : fn.Presentable) (hf : fn.Finished) :
    List.Forall₂ Spells fn.lines ([Text.ofString "func", fn.name] :: fn.bodyTokens) := by
  refine .cons ?_ (forall₂_flatMap fun b hb => .cons ?_ ?_)
  · have hfunc : Spells (Text.ofString "func") [Text.ofString "func"] :=
      (word_of_isName (by decide)).spells
    exact hfunc.append (h.spells_name.blank (by decide) (by decide)) (boundary_cons (by decide) _)
  · exact (word_of_isName (h.label_name b hb)).append_plain (by decide) |>.spells
  · rw [List.forall₂_map_left_iff, List.forall₂_map_right_iff, List.forall₂_same]
    intro v hv
    have hmem := hf.mem_printed.mp (List.mem_flatMap.mpr ⟨b, hb, hv⟩)
    exact .blank (by decide) (by decide) (h.spells_valueText hf hmem)

end Presentable

end Func

end TypeFlow
