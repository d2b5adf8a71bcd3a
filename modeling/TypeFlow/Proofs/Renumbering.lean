import TypeFlow.Proofs.Arena

/-! Functions with their values numbered in the order of a listing. -/

namespace TypeFlow

/-- The name under which a value is shown. -/
def Value.label (v : Value) : Text := if v.name.isEmpty then "v" ++ Text.ofInt v.id else v.name

def Operand.renumber (place : ValueId → ValueId) : Operand → Operand
  | .value id => .value (place id)
  | .literal lit => .literal lit

def Incoming.renumber (place : ValueId → ValueId) (e : Incoming) : Incoming :=
  { e with arg := e.arg.renumber place }

namespace Func

def membersOf (fn : Func) (b : Block) : List Value := b.members.filterMap fn.value?

/-- The values in the order of a listing. -/
def printed (fn : Func) : List Value := fn.blocks.flatMap fn.membersOf

/-- How many values a listing shows before the given one. -/
def place (fn : Func) (id : ValueId) : ValueId := fn.printOrder.idxOf id

def renumberedBlock (fn : Func) (b : Block) : Block :=
  { b with name := b.label, phis := b.phis.map fn.place, instrs := b.instrs.map fn.place }

/-- The value under its new number, with its users under theirs and in their order. A value that
cannot be used is shown without a name and loses it. -/
def renumberedValue (fn : Func) (v : Value) : Value :=
  { v with
    id := fn.place v.id
    name := if v.op.hasOutput then v.label else []
    args := v.args.map (·.renumber fn.place)
    edges := v.edges.map (·.renumber fn.place)
    uses := fn.printOrder.flatMap fun id =>
      (v.uses.filter (·.user == id)).map fun u => { u with user := fn.place id } }

/-- The function with its values numbered in the order of its listing, and named as they are shown.
Numbers of blocks stay as they are. -/
def renumbered (fn : Func) : Func :=
  { fn with
    blocks := fn.blocks.map fn.renumberedBlock
    values := fn.printed.map fn.renumberedValue }

def rebuiltBlock (fn : Func) (b : Block) : Block :=
  { fn.renumberedBlock b with preds := [], succs := [] }

def rebuiltValue (fn : Func) (v : Value) : Value := { fn.renumberedValue v with uses := [] }

/-- The renumbered function before edges and users are found. -/
def rebuilt (fn : Func) : Func :=
  { fn with
    blocks := fn.blocks.map fn.rebuiltBlock
    values := fn.printed.map fn.rebuiltValue }

namespace Linkable

variable {fn : Func}

theorem linked_exits (h : fn.Linkable) (b : Block) : fn.linked.exits b = fn.exits b := by
  unfold exits lastInstr?
  cases b.instrs.getLast? with
  | none => rfl
  | some id =>
    simp only [Option.bind_some, h.linked_value?]
    cases fn.value? id <;> rfl

theorem linked_linkable (h : fn.Linkable) : fn.linked.Linkable := by
  refine ⟨fun {i b} hb => ?_, fun {i v} hv => ?_, fun b hb t ht => ?_⟩
  · rw [h.linked_block?] at hb
    obtain ⟨b₀, hb₀, rfl⟩ := Option.map_eq_some_iff.mp hb
    have hid := h.block_id hb₀
    exact hid
  · rw [h.linked_value?] at hv
    obtain ⟨v₀, hv₀, rfl⟩ := Option.map_eq_some_iff.mp hv
    have hid := h.value_id hv₀
    exact hid
  · rw [h.linked_eq] at hb
    obtain ⟨b₀, hb₀, rfl⟩ := List.mem_map.mp hb
    rw [h.linked_exits] at ht
    exact h.exits_nonneg b₀ hb₀ t ht

theorem linked_linked (h : fn.Linkable) : fn.linked.linked = fn.linked := by
  have hblocks : fn.linked.blocks = fn.blocks.map fun b =>
      { b with preds := fn.predecessors b.id, succs := fn.successors b } := by rw [h.linked_eq]
  have hvalues : fn.linked.values = fn.values.map fun v => { v with uses := fn.users v.id } := by
    rw [h.linked_eq]
  have hpreds : ∀ i, fn.linked.predecessors i = fn.predecessors i := by
    intro i
    simp only [predecessors, hblocks, List.filter_map, List.map_map, h.linked_exits]
    rfl
  have husers : ∀ i, fn.linked.users i = fn.users i := by
    intro i
    simp only [users, hvalues, List.filter_map, List.map_map]
    rfl
  rw [h.linked_linkable.linked_eq, hblocks, hvalues]
  simp only [List.map_map, successors, h.linked_exits, hpreds, husers]
  rw [h.linked_eq]
  rfl

theorem sound_linked (h : fn.Linkable) (hs : fn.Sound) : fn.linked.Sound := by
  have hblocks : ∀ b ∈ fn.linked.blocks, ∃ b₀ ∈ fn.blocks, b.instrs = b₀.instrs := by
    intro b hb
    rw [h.linked_eq] at hb
    obtain ⟨b₀, hb₀, rfl⟩ := List.mem_map.mp hb
    exact ⟨b₀, hb₀, rfl⟩
  have hvalues : ∀ v ∈ fn.linked.values, ∃ v₀ ∈ fn.values, ∃ uses,
      v = { v₀ with uses := uses } := by
    intro v hv
    rw [h.linked_eq] at hv
    obtain ⟨v₀, hv₀, rfl⟩ := List.mem_map.mp hv
    exact ⟨v₀, hv₀, _, rfl⟩
  refine ⟨?_, fun b hb => ?_, fun b hb before id rest he v hv => ?_, fun v hv hp => ?_,
    fun v hv hp => ?_⟩
  · rw [h.linked_eq]
    simpa using hs.blocks_ne_nil
  · obtain ⟨b₀, hb₀, hi⟩ := hblocks b hb
    exact hi ▸ hs.instrs_ne_nil b₀ hb₀
  · obtain ⟨b₀, hb₀, hi⟩ := hblocks b hb
    rw [h.linked_value?] at hv
    obtain ⟨v₀, hv₀, rfl⟩ := Option.map_eq_some_iff.mp hv
    exact hs.closing b₀ hb₀ before id rest (hi ▸ he) v₀ hv₀
  · obtain ⟨v₀, hv₀, uses, rfl⟩ := hvalues v hv
    exact h.soundInstr_iff.mpr (hs.instr v₀ hv₀ hp)
  · obtain ⟨v₀, hv₀, uses, rfl⟩ := hvalues v hv
    obtain ⟨hedges, hnd⟩ := hs.edges v₀ hv₀ hp
    refine ⟨fun e he => ?_, hnd⟩
    obtain ⟨⟨w, hw, hm⟩, ho⟩ := hedges e he
    refine ⟨⟨{ w with uses := fn.users w.id }, ?_, hm⟩, h.soundOperand_iff.mpr ho⟩
    rw [h.linked_terminator?, hw]
    rfl

end Linkable

/-- What a builder finishes, said without the builder. -/
structure Finished (fn : Func) : Prop where
  wellFormed : fn.WellFormed
  sound : fn.Sound
  linkable : fn.Linkable
  linked : fn.linked = fn
  shaped : ∀ v ∈ fn.values, Builder.Shaped v
  entry_eq : fn.entry = 0

theorem Built.finished {fn : Func} (h : fn.Built) : fn.Finished := by
  obtain ⟨name, b, hb, hf⟩ := h
  have htidy := hb.tidy
  have hlink := Builder.finish_linkable htidy hf
  have hsound := sound_of_finish htidy hf
  have hfn : fn = b.func.linked := (Builder.finish_eq_ok hf).1.symm
  have wf := wellFormed_of_finish htidy hf
  subst hfn
  refine ⟨wf, hlink.sound_linked hsound, hlink.linked_linkable, hlink.linked_linked,
    fun v hv => ?_, ?_⟩
  · rw [hlink.linked_eq] at hv
    obtain ⟨v₀, hv₀, rfl⟩ := List.mem_map.mp hv
    exact htidy.shaped v₀ hv₀
  · rw [hlink.linked_eq]
    simpa [hsound.blocks_ne_nil] using htidy.entry_eq

theorem rebuilt_block? (fn : Func) (i : BlockId) :
    fn.rebuilt.block? i = (fn.block? i).map fn.rebuiltBlock :=
  lookup_map _ _ _

theorem renumbered_block? (fn : Func) (i : BlockId) :
    fn.renumbered.block? i = (fn.block? i).map fn.renumberedBlock :=
  lookup_map _ _ _

theorem members_subset {fn : Func} {b : Block} (hb : b ∈ fn.blocks) :
    b.members ⊆ fn.printOrder := fun _ hid => List.mem_flatMap.mpr ⟨b, hb, hid⟩

theorem renumbered_printOrder (fn : Func) :
    fn.renumbered.printOrder = fn.printOrder.map fn.place := by
  rw [printOrder, renumbered, List.flatMap_map, printOrder, List.map_flatMap]
  exact List.flatMap_congr fun b _ => List.map_append.symm

theorem place_inj {fn : Func} {i j : ValueId} (hi : i ∈ fn.printOrder)
    (he : fn.place i = fn.place j) : i = j := by
  have hidx : fn.printOrder.idxOf i = fn.printOrder.idxOf j := Int.ofNat.inj he
  exact (List.idxOf_inj hi).mp hidx

namespace Finished

variable {fn : Func}

theorem value?_of_mem (h : fn.Finished) {v : Value} (hv : v ∈ fn.values) :
    fn.value? v.id = some v :=
  lookup_number h.wellFormed.value_id hv

theorem block?_of_mem (h : fn.Finished) {b : Block} (hb : b ∈ fn.blocks) :
    fn.block? b.id = some b :=
  lookup_number h.wellFormed.block_id hb

theorem exists_value (h : fn.Finished) {id : ValueId} (hid : id ∈ fn.printOrder) :
    ∃ v, fn.value? id = some v := by
  obtain ⟨v, hv, rfl⟩ := List.mem_map.mp (h.wellFormed.printOrder_perm.mem_iff.mp hid)
  exact ⟨v, h.value?_of_mem hv⟩

theorem mem_printOrder (h : fn.Finished) {v : Value} (hv : v ∈ fn.values) :
    v.id ∈ fn.printOrder :=
  h.wellFormed.printOrder_perm.mem_iff.mpr (List.mem_map_of_mem hv)

theorem map_id_filterMap (h : fn.Finished) {ids : List ValueId} (hsub : ids ⊆ fn.printOrder) :
    (ids.filterMap fn.value?).map (·.id) = ids := by
  induction ids with
  | nil => rfl
  | cons id ids ih =>
    obtain ⟨hid, hrest⟩ := List.cons_subset.mp hsub
    obtain ⟨v, hv⟩ := h.exists_value hid
    rw [List.filterMap_cons_some hv, List.map_cons, ih hrest, h.wellFormed.value_id hv]

theorem map_id_membersOf (h : fn.Finished) {b : Block} (hb : b ∈ fn.blocks) :
    (fn.membersOf b).map (·.id) = b.members :=
  h.map_id_filterMap (members_subset hb)

theorem map_id_printed (h : fn.Finished) : fn.printed.map (·.id) = fn.printOrder := by
  rw [printed, List.map_flatMap]
  exact List.flatMap_congr fun b hb => h.map_id_membersOf hb

theorem mem_printed (h : fn.Finished) {v : Value} : v ∈ fn.printed ↔ v ∈ fn.values := by
  constructor
  · intro hv
    obtain ⟨b, -, hv⟩ := List.mem_flatMap.mp hv
    obtain ⟨id, -, hv⟩ := List.mem_filterMap.mp hv
    exact mem_of_lookup hv
  · intro hv
    obtain ⟨b, hb, hid⟩ := List.mem_flatMap.mp (h.mem_printOrder hv)
    exact List.mem_flatMap.mpr ⟨b, hb, List.mem_filterMap.mpr ⟨v.id, hid, h.value?_of_mem hv⟩⟩

theorem place_eq (h : fn.Finished) {pre post : List Value} {v : Value}
    (hp : fn.printed = pre ++ v :: post) : fn.place v.id = pre.length := by
  have horder : fn.printOrder = pre.map (·.id) ++ v.id :: post.map (·.id) := by
    rw [← h.map_id_printed, hp, List.map_append, List.map_cons]
  have hnd := h.wellFormed.printOrder_nodup
  rw [horder] at hnd
  have hnot : v.id ∉ pre.map (·.id) := by
    intro hm
    exact (List.nodup_append.mp hnd).2.2 v.id hm v.id List.mem_cons_self rfl
  rw [place, horder, List.idxOf_append_of_notMem hnot, List.idxOf_cons_self, Nat.add_zero,
    List.length_map]

theorem map_place_printOrder (h : fn.Finished) :
    fn.printOrder.map fn.place = (List.range fn.values.length).map (↑) := by
  have hlen : fn.printOrder.length = fn.values.length := by
    rw [h.wellFormed.printOrder_perm.length_eq, List.length_map]
  apply List.ext_getElem
  · simp [hlen]
  · intro i hi _
    rw [List.length_map] at hi
    rw [List.getElem_map, List.getElem_map, List.getElem_range, place,
      h.wellFormed.printOrder_nodup.idxOf_getElem]

theorem lookup_printed (h : fn.Finished) {id : ValueId} (hid : id ∈ fn.printOrder) :
    lookup fn.printed (fn.place id) = fn.value? id := by
  obtain ⟨v, hv⟩ := h.exists_value hid
  have hmem := h.mem_printed.mpr (mem_of_lookup hv)
  obtain ⟨pre, post, hp⟩ := List.append_of_mem hmem
  have hplace := h.place_eq hp
  rw [h.wellFormed.value_id hv] at hplace
  rw [hplace, lookup_natCast, hp, hv]
  simp

theorem rebuilt_value? (h : fn.Finished) {id : ValueId} (hid : id ∈ fn.printOrder) :
    fn.rebuilt.value? (fn.place id) = (fn.value? id).map fn.rebuiltValue := by
  rw [value?, rebuilt, lookup_map, h.lookup_printed hid]

theorem renumbered_value? (h : fn.Finished) {id : ValueId} (hid : id ∈ fn.printOrder) :
    fn.renumbered.value? (fn.place id) = (fn.value? id).map fn.renumberedValue := by
  rw [value?, renumbered, lookup_map, h.lookup_printed hid]

theorem rebuilt_lastInstr? (h : fn.Finished) {b : Block} (hb : b ∈ fn.blocks) :
    fn.rebuilt.lastInstr? (fn.rebuiltBlock b) = (fn.lastInstr? b).map fn.rebuiltValue := by
  simp only [lastInstr?, rebuiltBlock, renumberedBlock, List.getLast?_map]
  cases hl : b.instrs.getLast? with
  | none => rfl
  | some id =>
    have hid : id ∈ b.members := List.mem_append_right _ (List.mem_of_getLast? hl)
    exact h.rebuilt_value? (members_subset hb hid)

theorem rebuilt_exits (h : fn.Finished) {b : Block} (hb : b ∈ fn.blocks) :
    fn.rebuilt.exits (fn.rebuiltBlock b) = fn.exits b := by
  simp only [exits, h.rebuilt_lastInstr? hb]
  cases fn.lastInstr? b <;> rfl

theorem rebuilt_terminator? (h : fn.Finished) (p : BlockId) :
    fn.rebuilt.terminator? p = (fn.terminator? p).map fn.rebuiltValue := by
  simp only [terminator?, rebuilt_block?]
  cases hb : fn.block? p with
  | none => rfl
  | some b => exact h.rebuilt_lastInstr? (mem_of_lookup hb)

theorem rebuilt_soundOperand (h : fn.Finished) {o : Operand} (ho : fn.SoundOperand o) :
    fn.rebuilt.SoundOperand (o.renumber fn.place) := by
  cases o with
  | literal lit => exact ho
  | value id =>
    obtain ⟨v, hv, hout⟩ := ho
    have hid := h.mem_printOrder (mem_of_lookup hv)
    rw [h.wellFormed.value_id hv] at hid
    refine ⟨_, (h.rebuilt_value? hid).trans (congrArg _ hv), hout⟩

theorem rebuilt_sound (h : fn.Finished) : fn.rebuilt.Sound := by
  have hs := h.sound
  have hvalues : ∀ v ∈ fn.rebuilt.values, ∃ v₀ ∈ fn.values, v = fn.rebuiltValue v₀ := by
    intro v hv
    obtain ⟨v₀, hv₀, rfl⟩ := List.mem_map.mp hv
    exact ⟨v₀, h.mem_printed.mp hv₀, rfl⟩
  refine ⟨?_, fun b hb => ?_, fun b hb before id rest he v hv => ?_, fun v hv hp => ?_,
    fun v hv hp => ?_⟩
  · simpa [rebuilt] using hs.blocks_ne_nil
  · obtain ⟨b₀, hb₀, rfl⟩ := List.mem_map.mp hb
    simpa [rebuiltBlock, renumberedBlock] using hs.instrs_ne_nil b₀ hb₀
  · obtain ⟨b₀, hb₀, rfl⟩ := List.mem_map.mp hb
    obtain ⟨before₀, after, hsplit, -, hafter⟩ := List.map_eq_append_iff.mp he
    obtain ⟨id₀, rest₀, rfl, rfl, rfl⟩ := List.map_eq_cons_iff.mp hafter
    have hid : id₀ ∈ fn.printOrder := members_subset hb₀ (by simp [Block.members, hsplit])
    obtain ⟨v₀, hv₀⟩ := h.exists_value hid
    rw [h.rebuilt_value? hid, hv₀] at hv
    obtain rfl := Option.some.inj hv
    have hclosing := hs.closing b₀ hb₀ before₀ id₀ rest₀ hsplit v₀ hv₀
    rw [List.isEmpty_map]
    exact hclosing
  · obtain ⟨v₀, hv₀, rfl⟩ := hvalues v hv
    obtain ⟨hvalid, harity, hlen, htargets, hops⟩ := hs.instr v₀ hv₀ hp
    refine ⟨hvalid, fun n hn => ?_, hlen, fun t ht => ?_, fun o ho => ?_⟩
    · simpa [rebuiltValue, renumberedValue] using harity n hn
    · have hblock := htargets t ht
      simpa [hasBlock, rebuilt] using hblock
    · obtain ⟨o₀, ho₀, rfl⟩ := List.mem_map.mp ho
      exact h.rebuilt_soundOperand (hops o₀ ho₀)
  · obtain ⟨v₀, hv₀, rfl⟩ := hvalues v hv
    obtain ⟨hedges, hnd⟩ := hs.edges v₀ hv₀ hp
    refine ⟨fun e he => ?_, ?_⟩
    · obtain ⟨e₀, he₀, rfl⟩ := List.mem_map.mp he
      obtain ⟨⟨w, hw, hm⟩, ho⟩ := hedges e₀ he₀
      exact ⟨⟨_, (h.rebuilt_terminator? e₀.pred).trans (congrArg _ hw), hm⟩,
        h.rebuilt_soundOperand ho⟩
    · simpa [rebuiltValue, renumberedValue, Incoming.renumber, Function.comp_def] using hnd

theorem rebuilt_linkable (h : fn.Finished) : fn.rebuilt.Linkable := by
  refine ⟨fun {i b} hb => ?_, fun {i v} hv => ?_, fun b hb t ht => ?_⟩
  · rw [rebuilt_block?] at hb
    obtain ⟨b₀, hb₀, rfl⟩ := Option.map_eq_some_iff.mp hb
    have hid := h.wellFormed.block_id hb₀
    exact hid
  · obtain ⟨hi, hget⟩ := lookup_eq_some.mp hv
    rw [rebuilt, List.getElem?_map] at hget
    obtain ⟨v₀, hv₀, rfl⟩ := Option.map_eq_some_iff.mp hget
    obtain ⟨hlt, hv₀⟩ := List.getElem?_eq_some_iff.mp hv₀
    have hp : fn.printed = fn.printed.take i.toNat ++ v₀ :: fn.printed.drop (i.toNat + 1) := by
      rw [← hv₀, List.getElem_cons_drop, List.take_append_drop]
    have hplace := h.place_eq hp
    rw [List.length_take, Nat.min_eq_left (Nat.le_of_lt hlt), Int.toNat_of_nonneg hi] at hplace
    exact hplace
  · obtain ⟨b₀, hb₀, rfl⟩ := List.mem_map.mp hb
    rw [h.rebuilt_exits hb₀] at ht
    exact h.linkable.exits_nonneg b₀ hb₀ t ht

theorem edges_eq (h : fn.Finished) {b : Block} (hb : b ∈ fn.blocks) :
    b.preds = fn.predecessors b.id ∧ b.succs = fn.successors b := by
  have hblocks : (fn.blocks.map fun b =>
      { b with preds := fn.predecessors b.id, succs := fn.successors b }) = fn.blocks.map id := by
    rw [List.map_id]
    exact congrArg Func.blocks (h.linkable.linked_eq.symm.trans h.linked)
  have hself := List.map_inj_left.mp hblocks b hb
  exact ⟨(congrArg Block.preds hself).symm, (congrArg Block.succs hself).symm⟩

theorem uses_eq (h : fn.Finished) {v : Value} (hv : v ∈ fn.values) : v.uses = fn.users v.id := by
  have hvalues : (fn.values.map fun v => { v with uses := fn.users v.id }) = fn.values.map id := by
    rw [List.map_id]
    exact congrArg Func.values (h.linkable.linked_eq.symm.trans h.linked)
  exact (congrArg Value.uses (List.map_inj_left.mp hvalues v hv)).symm

theorem rebuilt_predecessors (h : fn.Finished) (i : BlockId) :
    fn.rebuilt.predecessors i = fn.predecessors i := by
  have hfilter : fn.blocks.filter (fun b => (fn.rebuilt.exits (fn.rebuiltBlock b)).contains i)
      = fn.blocks.filter fun b => (fn.exits b).contains i :=
    List.filter_congr fun b hb => by rw [h.rebuilt_exits hb]
  rw [predecessors, rebuilt, List.filter_map, List.map_map]
  exact congrArg (List.map (·.id)) hfilter

theorem rebuilt_refersTo {d : ValueId} (hd : d ∈ fn.printOrder) (u : Value) :
    (fn.renumberedValue u).refersTo (fn.place d) = u.refersTo d := by
  have hoperand : ∀ o : Operand, .value (fn.place d) = o.renumber fn.place ↔ .value d = o := by
    intro o
    cases o with
    | literal lit => simp [Operand.renumber]
    | value id =>
      simp only [Operand.renumber, Operand.value.injEq]
      exact ⟨place_inj hd, fun he => he ▸ rfl⟩
  have hoperands : (fn.renumberedValue u).operands = u.operands.map (·.renumber fn.place) := by
    simp [Value.operands, renumberedValue, Incoming.renumber, Function.comp_def]
  rw [Value.refersTo, Value.refersTo, hoperands, Bool.eq_iff_iff, List.contains_iff_mem,
    List.contains_iff_mem, List.mem_map]
  constructor
  · rintro ⟨o, ho, he⟩
    rwa [(hoperand o).mp he.symm]
  · intro hm
    exact ⟨_, hm, rfl⟩

theorem rebuilt_users (h : fn.Finished) {d : Value} (hd : d ∈ fn.values) :
    fn.rebuilt.users (fn.place d.id) = (fn.renumberedValue d).uses := by
  have hone : ∀ u ∈ fn.printed, ((fn.users d.id).filter (·.user == u.id)).map
      (fun use => { use with user := fn.place u.id })
      = if u.refersTo d.id then [⟨fn.place u.id, u.block⟩] else [] := by
    intro u hu
    have hsingle := Builder.filter_id_eq_singleton h.wellFormed.value_id (h.mem_printed.mp hu)
    simp only [users, List.filter_map, Function.comp_def]
    rw [List.filter_comm, hsingle]
    by_cases hr : u.refersTo d.id = true <;> simp [hr]
  have huses : (fn.renumberedValue d).uses
      = fn.printed.flatMap fun u => if u.refersTo d.id then [⟨fn.place u.id, u.block⟩] else [] := by
    rw [renumberedValue, h.uses_eq hd]
    simp only
    rw [← h.map_id_printed, List.flatMap_map]
    exact List.flatMap_congr hone
  have hfilter : fn.printed.filter (fun u => (fn.rebuiltValue u).refersTo (fn.place d.id))
      = fn.printed.filter (·.refersTo d.id) :=
    List.filter_congr fun u _ => rebuilt_refersTo (h.mem_printOrder hd) u
  rw [huses, users, rebuilt, List.filter_map, List.map_map]
  refine (congrArg (List.map fun u => Use.mk (fn.place u.id) u.block) hfilter).trans ?_
  rw [← List.filterMap_eq_map, List.filterMap_filter, List.filterMap_eq_flatMap_toList]
  refine List.flatMap_congr fun u _ => ?_
  cases u.refersTo d.id <;> rfl

theorem rebuilt_linked (h : fn.Finished) : fn.rebuilt.linked = fn.renumbered := by
  have hblocks : ∀ b ∈ fn.blocks,
      { fn.renumberedBlock b with
        preds := fn.rebuilt.predecessors b.id
        succs := fn.rebuilt.successors (fn.rebuiltBlock b) }
      = fn.renumberedBlock b := by
    intro b hb
    obtain ⟨hpreds, hsuccs⟩ := h.edges_eq hb
    rw [successors, h.rebuilt_exits hb, h.rebuilt_predecessors, ← hpreds, ← successors, ← hsuccs]
    rfl
  have hvalues : ∀ v ∈ fn.printed,
      { fn.renumberedValue v with uses := fn.rebuilt.users (fn.place v.id) }
      = fn.renumberedValue v := by
    intro v hv
    rw [h.rebuilt_users (h.mem_printed.mp hv)]
  rw [h.rebuilt_linkable.linked_eq, renumbered, Func.mk.injEq]
  refine ⟨rfl, rfl, ?_, ?_⟩
  · rw [rebuilt, List.map_map]
    exact List.map_congr_left hblocks
  · rw [rebuilt, List.map_map]
    exact List.map_congr_left hvalues

end Finished

end Func

end TypeFlow
