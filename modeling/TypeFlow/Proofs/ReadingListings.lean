import TypeFlow.Proofs.InstructionGrammar
import TypeFlow.Proofs.ListingLines

/-! Reading the lines of a listing back into the function that they show. -/

namespace TypeFlow

namespace Line

theorem isMark_eq_false {t : Text} (h : Token.Word t) : isMark t = false := by
  have hne : ∀ c, Token.isMark c = true → t ≠ [c] := by
    rintro c hc rfl
    exact absurd (h.not_mark (List.mem_singleton_self c)) (by simp [hc])
  have hcomma : t ≠ "," := hne _ (by decide)
  have hleft : t ≠ "[" := hne _ (by decide)
  have hright : t ≠ "]" := hne _ (by decide)
  have heq : t ≠ "=" := hne _ (by decide)
  simp [isMark, hcomma, hleft, hright, heq]

end Line

theorem Block.label?_colon (b : Block) :
    Token.label? [b.label ++ Text.ofString ":"] = some b.label := by
  simp [Token.label?, Text.dropSuffix?_append, b.label_ne_nil]

/-- The block while none of its members has been read. -/
def Block.unfilled (b : Block) : Block := { id := b.id, name := b.label }

namespace Func

/-- The statement that shows a value. -/
def statementOf (fn : Func) (v : Value) : Line.Statement :=
  ⟨if v.op.hasOutput then some v.label else none,
    if v.isPhi then .phi (v.edges.map (·.renumber fn.place))
    else .instr v.op v.targets (v.args.map (·.renumber fn.place))⟩

/-- The names stand for what they are shown for. -/
structure Resolves (fn : Func) (names : Line.Names) : Prop where
  value : ∀ v ∈ fn.values, v.op.hasOutput = true → names.value? v.label = some (fn.place v.id)
  block : ∀ b ∈ fn.blocks, names.block? b.label = some b.id
  name : ∀ {t id}, names.value? t = some id → Token.isName t = true
  unmarked : names.Unmarked

namespace Presentable

open Line

variable {fn : Func}

/-- Only an instruction may have no result, and its items are words, none of which is taken for an
equals sign. -/
theorem result_valueTokens (h : fn.Presentable) (hf : fn.Finished) {v : Value}
    (hv : v ∈ fn.values) : result (fn.valueTokens v) = ((fn.statementOf v).name,
      v.op.text :: [Text.ofString ","].intercalate (fn.itemTokens v)) := by
  cases hout : v.op.hasOutput with
  | true => simp [valueTokens, statementOf, hout, result]
  | false =>
    have hphi : v.isPhi = false := by
      refine beq_eq_false_iff_ne.mpr fun hop => ?_
      rw [hop] at hout
      cases hout
    simp only [valueTokens, statementOf, hout, itemTokens, hphi, Bool.false_eq_true, if_false,
      List.nil_append]
    have hwords := fun t ht => isMark_eq_false (h.word_item hf hv hphi (t := t) ht)
    generalize v.args.map fn.operandText ++ v.targets.map fn.blockLabel = items at hwords
    refine result_of_head ?_
    cases items with
    | nil => simp
    | cons t ts =>
      rw [List.map_cons, intercalate_cons_eq]
      intro heq
      obtain rfl : t = "=" := Option.some.inj heq
      exact absurd (hwords _ List.mem_cons_self) (by decide)

theorem head?_valueTokens (h : fn.Presentable) (hf : fn.Finished) {v : Value}
    (hv : v ∈ fn.values) : (fn.valueTokens v).head? ≠ some (Text.ofString "func") := by
  intro he
  unfold valueTokens at he
  split at he
  · next hout => exact (h.result_name v hv hout).2 (Option.some.inj he)
  · exact Opcode.text_ne_func (hf.valid hv) (Option.some.inj he)

end Presentable

namespace Resolves

open Line

variable {fn : Func} {names : Names}

theorem denotes (h : fn.Resolves names) (hp : fn.Presentable) (hf : fn.Finished) {v : Value}
    (hv : v ∈ fn.values) {o : Operand} (ho : o ∈ v.operands) :
    names.Denotes (fn.operandText o) (o.renumber fn.place) := by
  cases o with
  | literal lit =>
    have hcanonical := Literal.canonical_iff_read.mpr (hp.literal v hv lit ho)
    have hname := Literal.not_isName_text hcanonical
    have hnone : names.value? lit.text = none := by
      cases hl : names.value? lit.text with
      | none => rfl
      | some id => rw [h.name hl] at hname; cases hname
    exact .literal hnone (Literal.read_text hcanonical)
  | value id =>
    obtain ⟨w, hw, hout⟩ := hf.soundOperand hv ho
    have hvalue := h.value w (mem_of_lookup hw) hout
    rw [hf.wellFormed.value_id hw] at hvalue
    have htext : fn.operandText (.value id) = w.label := by simp [operandText, hw]
    rw [htext]
    exact .value hvalue

theorem target (h : fn.Resolves names) (hf : fn.Finished) {i : BlockId}
    (hi : fn.hasBlock i = true) : names.block? (fn.blockLabel i) = some i := by
  obtain ⟨b, hb⟩ := hasBlock_iff.mp hi
  have hblock := h.block b (mem_of_lookup hb)
  rw [hf.wellFormed.block_id hb] at hblock
  simp [blockLabel, hb, hblock]

theorem completes_phi (h : fn.Resolves names) (hp : fn.Presentable) (hf : fn.Finished) {v : Value}
    (hv : v ∈ fn.values) (hphi : v.isPhi = true) :
    Completes names v.op ([Text.ofString ","].intercalate (v.edges.map fn.edgeTokens))
      (.phi (v.edges.map (·.renumber fn.place))) := by
  rw [beq_iff_eq.mp hphi]
  refine .phi ?_
  rw [List.forall₂_map_left_iff, List.forall₂_map_right_iff, List.forall₂_same]
  intro e he
  have harg := h.denotes hp hf hv (List.mem_append_right _ (List.mem_map_of_mem he))
  obtain ⟨⟨w, hw, -⟩, -⟩ := (hf.sound.edges v hv hphi).1 e he
  obtain ⟨b, hb, -⟩ := Option.bind_eq_some_iff.mp hw
  exact .mk (h.target hf (hasBlock_iff.mpr ⟨b, hb⟩)) harg

theorem completes_instr (h : fn.Resolves names) (hp : fn.Presentable) (hf : fn.Finished)
    {v : Value} (hv : v ∈ fn.values) (hphi : v.isPhi = false) :
    Completes names v.op ([Text.ofString ","].intercalate
        ((v.args.map fn.operandText ++ v.targets.map fn.blockLabel).map ([·])))
      (.instr v.op v.targets (v.args.map (·.renumber fn.place))) := by
  have hinstr := hf.sound.instr v hv hphi
  refine .instr (beq_eq_false_iff_ne.mp hphi) ?_ ?_ (by simp [hinstr.targets_length])
  · rw [List.forall₂_map_left_iff, List.forall₂_map_right_iff, List.forall₂_same]
    exact fun o ho => h.denotes hp hf hv (List.mem_append_left _ ho)
  · rw [List.forall₂_map_left_iff, List.forall₂_same]
    exact fun t ht => h.target hf (hinstr.targets t ht)

theorem statement (h : fn.Resolves names) (hp : fn.Presentable) (hf : fn.Finished) {v : Value}
    (hv : v ∈ fn.values) : Line.statement names (fn.valueTokens v) = .ok (fn.statementOf v) := by
  have hname : (fn.statementOf v).name.filter (· ≠ []) = (fn.statementOf v).name := by
    cases hout : v.op.hasOutput with
    | false =>
      rw [statementOf, hout]
      rfl
    | true =>
      rw [statementOf, hout]
      exact filter_written v.label_ne_nil
  have hbody : Completes names v.op ([Text.ofString ","].intercalate (fn.itemTokens v))
      (fn.statementOf v).body := by
    cases hphi : v.isPhi with
    | true => simpa [itemTokens, statementOf, hphi] using h.completes_phi hp hf hv hphi
    | false => simpa [itemTokens, statementOf, hphi] using h.completes_instr hp hf hv hphi
  have hread := statement_of_result h.unmarked (hp.result_valueTokens hf hv) (hf.valid hv)
    (fun hsome => ?_) hbody
  · rwa [hname] at hread
  · rw [hname] at hsome
    by_contra hout
    simp [statementOf, hout] at hsome

end Resolves

/-- The names that the lines of a listing define. -/
def shownNames (fn : Func) : Line.Names :=
  Line.Names.addAll {} 0 (fn.bodyTokens.map Line.head)

/-- What has been read when the lines of the blocks in `done` have been and those of the blocks in
`todo` have not. -/
def readUpTo (fn : Func) (done todo : List Block) : Func :=
  { fn with
    blocks := done.map fn.rebuiltBlock ++ todo.map Block.unfilled
    values := (done.flatMap fn.membersOf).map fn.rebuiltValue }

/-- No two values that may be used are shown under one name. -/
def DistinctNames (fn : Func) : Prop :=
  ((fn.values.filter (·.op.hasOutput)).map (·.label)).Nodup

namespace Finished

open Line

variable {fn : Func}

theorem label?_valueTokens (h : fn.Finished) {v : Value} (hv : v ∈ fn.values) :
    Token.label? (fn.valueTokens v) = none := by
  unfold valueTokens
  split
  · rfl
  · cases hitems : [Text.ofString ","].intercalate (fn.itemTokens v) with
    | nil => exact Opcode.label?_text (h.valid hv)
    | cons t ts => rfl

theorem heads_eq (h : fn.Finished) (hp : fn.Presentable) :
    fn.bodyTokens.map head = fn.blocks.flatMap fun b =>
      .label b.label :: (fn.membersOf b).map fun v => .value (fn.statementOf v).name := by
  rw [bodyTokens, List.map_flatMap]
  refine List.flatMap_congr fun b hb => ?_
  rw [blockTokens, List.map_cons, List.map_map, head, b.label?_colon]
  refine congrArg _ (List.map_congr_left fun v hv => ?_)
  have hmem := h.mem_printed.mp (List.mem_flatMap.mpr ⟨b, hb, hv⟩)
  rw [Function.comp_apply, head, h.label?_valueTokens hmem,
    hp.result_valueTokens h hmem]

theorem labels_shownNames (h : fn.Finished) (hp : fn.Presentable) :
    fn.shownNames.labels = fn.blocks.map (·.label) := by
  rw [shownNames, Names.labels_addAll, h.heads_eq hp, List.filterMap_flatMap, List.map_eq_flatMap]
  refine List.flatMap_congr fun b _ => ?_
  simp [Head.label?, List.filterMap_map, Function.comp_def]

theorem values_shownNames (h : fn.Finished) (hp : fn.Presentable) :
    fn.shownNames.values = ((fn.printed.map fun v => (fn.statementOf v).name).zipIdx.filterMap
      fun p => p.1.map (·, (p.2 : ValueId))).reverse := by
  have hnames : (fn.bodyTokens.map head).filterMap Head.value?
      = fn.printed.map fun v => (fn.statementOf v).name := by
    rw [h.heads_eq hp, List.filterMap_flatMap, printed, List.map_flatMap]
    refine List.flatMap_congr fun b _ => ?_
    simp [Head.value?, List.filterMap_cons, List.filterMap_map, Function.comp_def]
  have hvalues := Names.values_addAll {} 0 (fn.bodyTokens.map head)
  rw [hnames, List.append_nil] at hvalues
  exact hvalues

theorem printed_perm (h : fn.Finished) : fn.printed.Perm fn.values := by
  have hprinted : fn.printed.Nodup := by
    refine List.Nodup.of_map (·.id) ?_
    rw [h.map_id_printed]
    exact h.wellFormed.printOrder_nodup
  have hvalues : fn.values.Nodup := (nodup_of_number h.wellFormed.value_id).of_map
  exact (List.perm_ext_iff_of_nodup hprinted hvalues).mpr fun v => h.mem_printed

theorem good_shownNames_iff (h : fn.Finished) (hp : fn.Presentable) :
    fn.shownNames.Good ↔ fn.DistinctNames := by
  have hkeys : fn.shownNames.values.map (·.1)
      = ((fn.printed.filter (·.op.hasOutput)).map (·.label)).reverse := by
    have hfst : ∀ names : List (Option Text), (names.zipIdx.filterMap fun p =>
        (p.1.map (·, (p.2 : ValueId))).map (·.1)) = names.filterMap id := by
      intro names
      simp only [Option.map_map, Function.comp_def, Option.map_id']
      conv_rhs => rw [← List.zipIdx_map_fst 0 names, List.filterMap_map]
      rfl
    rw [h.values_shownNames hp, List.map_reverse, List.map_filterMap, hfst, List.filterMap_map,
      ← List.filterMap_eq_map, List.filterMap_filter]
    refine congrArg _ (List.filterMap_congr fun v _ => ?_)
    cases hout : v.op.hasOutput <;> simp [statementOf, hout]
  have hnd : (fn.shownNames.values.map (·.1)).Nodup ↔ fn.DistinctNames := by
    rw [hkeys, List.nodup_reverse, DistinctNames]
    exact ((h.printed_perm.filter _).map _).nodup_iff
  refine ⟨fun hg => hnd.mp hg.values_nodup, fun hd => ⟨?_, ?_, ?_, hnd.mpr hd⟩⟩
  · rw [h.labels_shownNames hp]
    simpa using hp.label_name
  · rw [h.labels_shownNames hp]
    exact hp.labels_nodup
  · intro p hm
    have hm := List.mem_map_of_mem (f := (·.1)) hm
    rw [hkeys, List.mem_reverse] at hm
    obtain ⟨v, hv, he⟩ := List.mem_map.mp hm
    obtain ⟨hv, hout⟩ := List.mem_filter.mp hv
    rw [← he]
    exact (hp.result_name v (h.mem_printed.mp hv) hout).1

theorem resolves (h : fn.Finished) (hp : fn.Presentable) (hd : fn.DistinctNames) :
    fn.Resolves fn.shownNames := by
  have hg := (h.good_shownNames_iff hp).mpr hd
  refine ⟨fun v hv hout => ?_, fun b hb => ?_, fun {t id} ht => ?_, hg.unmarked⟩
  · obtain ⟨pre, post, hsplit⟩ := List.append_of_mem (h.mem_printed.mpr hv)
    rw [hg.value?_eq_some_iff, h.values_shownNames hp, List.mem_reverse, List.mem_filterMap,
      h.place_eq hsplit]
    refine ⟨((fn.statementOf v).name, pre.length), ?_, by simp [statementOf, hout]⟩
    rw [List.mk_mem_zipIdx_iff_getElem?, hsplit]
    simp
  · obtain ⟨n, hn⟩ := exists_lookup_of_mem hb
    rw [h.wellFormed.block_id hn]
    refine hg.block?_getElem ?_
    rw [h.labels_shownNames hp, List.getElem?_map, ← lookup_natCast, hn]
    rfl
  · exact hg.value_name _ (hg.value?_eq_some_iff.mp ht)

/-! Reading the lines -/

open Source

theorem toValue_statementOf (h : fn.Finished) {v : Value} (hv : v ∈ fn.values) :
    (fn.statementOf v).toValue (fn.place v.id) v.block = fn.rebuiltValue v := by
  have hshaped := h.shaped v hv
  have hname : (fn.statementOf v).name.getD [] = if v.op.hasOutput then v.label else [] := by
    cases hout : v.op.hasOutput <;> simp [statementOf, hout]
  unfold Builder.Shaped at hshaped
  split at hshaped
  · next hphi =>
    obtain ⟨hargs, htargets⟩ := hshaped
    have hbody : (fn.statementOf v).body = .phi (v.edges.map (·.renumber fn.place)) := by
      simp [statementOf, hphi]
    have hop : v.op = .phi := beq_iff_eq.mp hphi
    simp only [Statement.toValue, hbody, hname]
    simp [rebuiltValue, renumberedValue, hargs, htargets, hop]
  · next hphi =>
    have hbody : (fn.statementOf v).body
        = .instr v.op v.targets (v.args.map (·.renumber fn.place)) := by
      simp [statementOf, hphi]
    simp only [Statement.toValue, hbody, hname]
    simp [rebuiltValue, renumberedValue, hshaped]

theorem isPhi_of_mem_phis (h : fn.Finished) {b : Block} (hb : b ∈ fn.blocks) {v : Value}
    (hv : v ∈ b.phis.filterMap fn.value?) : v.isPhi = true ∧ v.block = b.id := by
  obtain ⟨id, hid, hv⟩ := List.mem_filterMap.mp hv
  obtain ⟨w, hw, hphi, hblock⟩ := h.wellFormed.phi_value (h.block?_of_mem hb) hid
  obtain rfl : w = v := Option.some.inj (hw.symm.trans hv)
  exact ⟨hphi, hblock⟩

theorem isPhi_of_mem_instrs (h : fn.Finished) {b : Block} (hb : b ∈ fn.blocks) {v : Value}
    (hv : v ∈ b.instrs.filterMap fn.value?) : v.isPhi = false ∧ v.block = b.id := by
  obtain ⟨id, hid, hv⟩ := List.mem_filterMap.mp hv
  obtain ⟨w, hw, hphi, hblock⟩ := h.wellFormed.instr_value (h.block?_of_mem hb) hid
  obtain rfl : w = v := Option.some.inj (hw.symm.trans hv)
  exact ⟨hphi, hblock⟩

theorem block_of_mem_membersOf (h : fn.Finished) {b : Block} (hb : b ∈ fn.blocks) {v : Value}
    (hv : v ∈ fn.membersOf b) : v.block = b.id := by
  rw [membersOf, Block.members, List.filterMap_append, List.mem_append] at hv
  rcases hv with hv | hv
  · exact (h.isPhi_of_mem_phis hb hv).2
  · exact (h.isPhi_of_mem_instrs hb hv).2

theorem foldl_push_membersOf (h : fn.Finished) {b : Block} (hb : b ∈ fn.blocks) :
    ((fn.membersOf b).map fn.rebuiltValue).foldl Block.push b.unfilled = fn.rebuiltBlock b := by
  have hids : ∀ ids ⊆ b.members, ((ids.filterMap fn.value?).map fn.rebuiltValue).map (·.id)
      = ids.map fn.place := by
    intro ids hsub
    have hid : (·.id) ∘ fn.rebuiltValue = fn.place ∘ (·.id) := rfl
    rw [List.map_map, hid, ← List.map_map,
      h.map_id_filterMap (List.Subset.trans hsub (members_subset hb))]
  have hphis : ∀ v ∈ (b.phis.filterMap fn.value?).map fn.rebuiltValue, v.isPhi = true := by
    intro v hv
    obtain ⟨w, hw, rfl⟩ := List.mem_map.mp hv
    exact (h.isPhi_of_mem_phis hb hw).1
  have hinstrs : ∀ v ∈ (b.instrs.filterMap fn.value?).map fn.rebuiltValue, v.isPhi = false := by
    intro v hv
    obtain ⟨w, hw, rfl⟩ := List.mem_map.mp hv
    exact (h.isPhi_of_mem_instrs hb hw).1
  rw [membersOf, Block.members, List.filterMap_append, List.map_append, List.foldl_append,
    Block.foldl_push_phis hphis, Block.foldl_push_instrs hinstrs,
    hids b.phis (List.subset_append_left _ _), hids b.instrs (List.subset_append_right _ _)]
  rfl

/-- One line of a value: what it adds comes at the end of everything so far. -/
theorem addLine_valueTokens (h : fn.Finished) (hp : fn.Presentable) (hd : fn.DistinctNames)
    {file : Text} {done todo : List Block} {v : Value} (hblock : v.block = done.length)
    {pre post : List Value} (hv : fn.printed = pre ++ v :: post) {l : Numbered}
    (hl : l.tokens = fn.valueTokens v) (x : Block) :
    addLine file fn.shownNames
        ⟨⟨fn.name, fn.entry, done ++ x :: todo, pre.map fn.rebuiltValue⟩, done.length⟩ l
      = .ok ⟨⟨fn.name, fn.entry, done ++ x.push (fn.rebuiltValue v) :: todo,
          (pre ++ [v]).map fn.rebuiltValue⟩, done.length⟩ := by
  have hmem : v ∈ fn.values := h.mem_printed.mp (by simp [hv])
  have hplace := h.place_eq hv
  have hresolves := h.resolves hp hd
  simp only [addLine_eq, hl, h.label?_valueTokens hmem, hresolves.statement hp h hmem]
  refine built_eq_ok.mpr (addStatement_eq_ok_iff.mpr ⟨?_, ?_, ?_, ?_⟩)
  · simp [hasBlock]
  · rintro op targets args hbody rfl
    cases hphi : v.isPhi with
    | true => simp [statementOf, hphi] at hbody
    | false =>
      obtain ⟨hop, -⟩ : v.op = .phi ∧ _ := by simpa [statementOf, hphi] using hbody
      simp [Value.isPhi, hop] at hphi
  · intro name hname
    have hout : v.op.hasOutput = true ∧ v.label = name := by simpa [statementOf] using hname
    rw [← hout.2, hresolves.value v hmem hout.1, hplace, List.length_map]
    rfl
  · rw [List.length_map, ← hplace, ← hblock, h.toValue_statementOf hmem]
    have hindex : (fn.rebuiltValue v).block.toNat = done.length := by
      rw [← Int.toNat_natCast done.length, ← hblock]
      rfl
    simp [Func.push, hindex, modify_length_append]

theorem foldlM_membersOf (h : fn.Finished) (hp : fn.Presentable) (hd : fn.DistinctNames)
    (file : Text) {done : List Block} (todo : List Block) {pre vs post : List Value}
    (hblock : ∀ v ∈ vs, v.block = done.length) (hvs : fn.printed = pre ++ (vs ++ post))
    {ls : List Numbered} (hls : ls.map (·.tokens) = vs.map fn.valueTokens) (x : Block) :
    ls.foldlM (addLine file fn.shownNames)
        ⟨⟨fn.name, fn.entry, done ++ x :: todo, pre.map fn.rebuiltValue⟩, done.length⟩
      = .ok ⟨⟨fn.name, fn.entry, done ++ (vs.map fn.rebuiltValue).foldl Block.push x :: todo,
          (pre ++ vs).map fn.rebuiltValue⟩, done.length⟩ := by
  induction vs generalizing pre ls x with
  | nil =>
    rw [List.map_eq_nil_iff.mp hls, List.append_nil]
    rfl
  | cons v vs ih =>
    obtain ⟨hv, hblock⟩ := List.forall_mem_cons.mp hblock
    obtain ⟨l, ls, rfl, hl, hls⟩ := List.map_eq_cons_iff.mp hls
    have hrest : fn.printed = pre ++ [v] ++ (vs ++ post) := by rw [hvs]; simp
    rw [List.foldlM_cons, h.addLine_valueTokens hp hd hv hvs hl]
    refine (ih hblock hrest hls _).trans ?_
    simp

theorem foldlM_block (h : fn.Finished) (hp : fn.Presentable) (hd : fn.DistinctNames)
    {file : Text} {done todo : List Block} {b : Block} (hblocks : fn.blocks = done ++ b :: todo)
    {ls : List Numbered} (hls : ls.map (·.tokens) = fn.blockTokens b) (cur : BlockId) :
    ls.foldlM (addLine file fn.shownNames) ⟨fn.readUpTo done (b :: todo), cur⟩
      = .ok ⟨fn.readUpTo (done ++ [b]) todo, b.id⟩ := by
  have hb : b ∈ fn.blocks := by simp [hblocks]
  have hid : b.id = (done.map fn.rebuiltBlock).length := by
    have hget : fn.block? done.length = some b := by
      rw [block?, lookup_natCast, hblocks]
      simp
    rw [h.wellFormed.block_id hget, List.length_map]
  obtain ⟨l, ms, rfl, hl, hms⟩ := List.map_eq_cons_iff.mp hls
  have hcurrent : addLine file fn.shownNames ⟨fn.readUpTo done (b :: todo), cur⟩ l
      = .ok ⟨fn.readUpTo done (b :: todo), b.id⟩ := by
    have hlabel : Token.label? l.tokens = some b.label := by
      rw [hl]
      exact b.label?_colon
    simp [addLine_eq, hlabel, (h.resolves hp hd).block b hb]
  have hprinted : fn.printed = done.flatMap fn.membersOf
      ++ (fn.membersOf b ++ todo.flatMap fn.membersOf) := by
    simp [printed, hblocks]
  have hmembers := h.foldlM_membersOf hp hd file (todo.map Block.unfilled)
    (fun v hv => (h.block_of_mem_membersOf hb hv).trans hid) hprinted hms b.unfilled
  rw [h.foldl_push_membersOf hb, ← hid] at hmembers
  rw [List.foldlM_cons, hcurrent]
  refine hmembers.trans ?_
  simp [readUpTo]

theorem foldlM_body (h : fn.Finished) (hp : fn.Presentable) (hd : fn.DistinctNames)
    (file : Text) {done todo : List Block} (hblocks : fn.blocks = done ++ todo)
    {ls : List Numbered} (hls : ls.map (·.tokens) = todo.flatMap fn.blockTokens) (cur : BlockId) :
    ∃ cur', ls.foldlM (addLine file fn.shownNames) ⟨fn.readUpTo done todo, cur⟩
      = .ok ⟨fn.rebuilt, cur'⟩ := by
  induction todo generalizing done ls cur with
  | nil =>
    rw [List.append_nil] at hblocks
    rw [List.map_eq_nil_iff.mp hls, ← hblocks]
    exact ⟨cur, by simp [readUpTo, rebuilt, printed, pure, Except.pure]⟩
  | cons b todo ih =>
    rw [List.flatMap_cons, List.map_eq_append_iff] at hls
    obtain ⟨first, rest, rfl, hfirst, hrest⟩ := hls
    have hsplit : fn.blocks = (done ++ [b]) ++ todo := by simp [hblocks]
    obtain ⟨cur', hnext⟩ := ih hsplit hrest b.id
    refine ⟨cur', ?_⟩
    rw [List.foldlM_append, h.foldlM_block hp hd hblocks hfirst]
    exact hnext

theorem startOf_shownNames (h : fn.Finished) (hp : fn.Presentable) :
    startOf fn.name fn.shownNames.labels = ⟨fn.readUpTo [] fn.blocks, noBlock⟩ := by
  have hne : (fn.blocks.map (·.label)).isEmpty = false := by simp [h.sound.blocks_ne_nil]
  have hblocks : (fn.blocks.map (·.label)).zipIdx.map (fun p => labelled p.1 p.2)
      = fn.blocks.map Block.unfilled := by
    apply List.ext_getElem?
    intro n
    simp only [List.getElem?_map, List.getElem?_zipIdx, Nat.zero_add]
    cases hn : fn.blocks[n]? with
    | none => rfl
    | some b =>
      have hid := h.wellFormed.block_id ((lookup_natCast fn.blocks n).trans hn)
      simp [labelled, Block.unfilled, hid]
  rw [h.labels_shownNames hp, startOf, hblocks, hne, readUpTo, h.entry_eq]
  rfl

/-- The lines of a listing are read unless they define a name twice, and then as the function with
its values renumbered. -/
theorem toFunc_eq_ok_iff (h : fn.Finished) (hp : fn.Presentable) {file : Text} {d : Draft}
    (hname : d.name = fn.name) (hlines : d.lines.reverse.map (·.tokens) = fn.bodyTokens)
    {fn' : Func} : d.toFunc file = .ok fn' ↔ fn.DistinctNames ∧ fn' = fn.renumbered := by
  have hne : fn.shownNames.labels ≠ [] := by
    rw [h.labels_shownNames hp]
    simpa using h.sound.blocks_ne_nil
  have hnames : ∀ names, defineAll file {} 0 d.lines.reverse = .ok names ↔
      names = fn.shownNames ∧ fn.DistinctNames := by
    intro names
    have hheads : d.lines.reverse.map (fun l => head l.tokens) = fn.bodyTokens.map head := by
      rw [← hlines, List.map_map]
      rfl
    have hfirst : ∀ l ∈ d.lines.reverse.head?, ∀ name, head l.tokens ≠ .value name := by
      obtain ⟨b, rest, hb⟩ := List.exists_cons_of_ne_nil h.sound.blocks_ne_nil
      intro l hl name
      rw [h.heads_eq hp, hb, List.flatMap_cons, List.cons_append] at hheads
      have hhead := congrArg List.head? hheads
      rw [List.head?_map, Option.mem_def.mp hl] at hhead
      have hlabel : head l.tokens = .label b.label := Option.some.inj hhead
      rw [hlabel]
      nofun
    rw [defineAll_eq_ok_iff Names.good_nil, hheads, ← shownNames]
    constructor
    · rintro ⟨rfl, hg, -⟩
      exact ⟨rfl, (h.good_shownNames_iff hp).mp hg⟩
    · rintro ⟨rfl, hd⟩
      exact ⟨rfl, (h.good_shownNames_iff hp).mpr hd, fun _ => hfirst⟩
  have hread : fn.DistinctNames → ∃ cur, d.lines.reverse.foldlM (addLine file fn.shownNames)
      (startOf d.name fn.shownNames.labels) = .ok ⟨fn.rebuilt, cur⟩ := by
    intro hd
    rw [hname, h.startOf_shownNames hp]
    have hblocks : fn.blocks = [] ++ fn.blocks := rfl
    exact h.foldlM_body hp hd file hblocks hlines noBlock
  have hfinish : ∀ cur, d.lines.reverse.foldlM (addLine file fn.shownNames)
      (startOf d.name fn.shownNames.labels) = .ok ⟨fn.rebuilt, cur⟩ →
      Builder.finish ⟨fn.rebuilt, cur⟩ = .ok fn.renumbered := by
    intro cur hcur
    have htidy := (leads_addLines hcur).tidy
    exact htidy.finish_eq_ok_iff.mpr ⟨h.rebuilt_linked.symm, h.rebuilt_sound⟩
  rw [Draft.toFunc_eq_ok_iff]
  constructor
  · rintro ⟨names, b, hdefine, -, hb, hf⟩
    obtain ⟨rfl, hd⟩ := (hnames names).mp hdefine
    obtain ⟨cur, hcur⟩ := hread hd
    obtain rfl := Except.ok.inj (hb.symm.trans hcur)
    exact ⟨hd, Except.ok.inj (hf.symm.trans (hfinish cur hcur))⟩
  · rintro ⟨hd, rfl⟩
    obtain ⟨cur, hcur⟩ := hread hd
    exact ⟨_, _, (hnames _).mpr ⟨rfl, hd⟩, hne, hcur, hfinish cur hcur⟩

end Finished

end Func

end TypeFlow
