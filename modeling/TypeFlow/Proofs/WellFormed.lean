import TypeFlow.Proofs.Checking

/-! What every accepted function is like. Numbers are positions, blocks list exactly the values that
live in them, jumps and branches stand last in their block, and whatever is referred to exists. Use
lists hold the users of a value and predecessor lists the blocks that lead to a block. -/

namespace TypeFlow

namespace Func

structure WellFormed (fn : Func) : Prop where
  entry_block : ∃ b, fn.block? fn.entry = some b
  block_id : ∀ {i b}, fn.block? i = some b → b.id = i
  value_id : ∀ {i v}, fn.value? i = some v → v.id = i
  phi_value : ∀ {i b id}, fn.block? i = some b → id ∈ b.phis →
    ∃ v, fn.value? id = some v ∧ v.isPhi = true ∧ v.block = i
  instr_value : ∀ {i b id}, fn.block? i = some b → id ∈ b.instrs →
    ∃ v, fn.value? id = some v ∧ v.isPhi = false ∧ v.block = i
  listed : ∀ {id v}, fn.value? id = some v →
    ∃ b, fn.block? v.block = some b ∧ id ∈ if v.isPhi then b.phis else b.instrs
  /-- What leads to other blocks stands last. -/
  terminal : ∀ {id v}, fn.value? id = some v → v.isPhi = false → 0 < v.op.targetCount →
    fn.terminator? v.block = some v
  targets_length : ∀ {id v}, fn.value? id = some v → v.isPhi = false →
    v.targets.length = v.op.targetCount
  target_block : ∀ {id v c}, fn.value? id = some v → c ∈ v.targets → ∃ b, fn.block? c = some b
  jump_operands : ∀ {id v}, fn.value? id = some v → v.op = .jmp → v.operands = []
  edge_value : ∀ {id v e d}, fn.value? id = some v → v.isPhi = true → e ∈ v.edges →
    e.arg = .value d → ∃ w, fn.value? d = some w
  /-- A φ-node has at most one edge from a block. -/
  edges_unique : ∀ {id v}, fn.value? id = some v → v.isPhi = true → (v.edges.map (·.pred)).Nodup
  uses_iff : ∀ {id v u}, fn.value? id = some v →
    (u ∈ v.uses ↔ ∃ w, fn.value? u.user = some w ∧ w.block = u.block ∧ w.refersTo id = true)
  preds_iff : ∀ {i b p}, fn.block? i = some b →
    (p ∈ b.preds ↔ ∃ v, fn.terminator? p = some v ∧ i ∈ v.targets)
  succs_iff : ∀ {i b c}, fn.block? i = some b →
    (c ∈ b.succs ↔ ∃ v, fn.terminator? i = some v ∧ c ∈ v.targets)
  members_sum : (fn.blocks.map (·.members.length)).sum = fn.values.length

theorem linkable_of_tidy {b : Builder} (htidy : b.Tidy) (h : b.func.missingTarget? = none) :
    b.func.Linkable where
  block_id := htidy.block_id
  value_id := htidy.value_id
  exits_nonneg blk _ t ht := by
    obtain ⟨v, hv, hm⟩ := mem_exits.mp ht
    obtain ⟨id, -, hv⟩ := Option.bind_eq_some_iff.mp hv
    obtain ⟨c, hc⟩ := hasBlock_iff.mp (missingTarget?_eq_none_iff.mp h v (mem_of_lookup hv) t hm)
    exact (lookup_bounds hc).1

end Func

theorem Builder.finish_eq_ok {b : Builder} {fn : Func} (h : b.finish = .ok fn) :
    b.func.linked = fn ∧ b.func.missingTarget? = none ∧ fn.problems? = some [] := by
  unfold Builder.finish at h
  split at h
  · cases h
  split at h
  · split at h <;> cases h
  next hm =>
  dsimp only at h
  split at h
  · cases h
  · next hp =>
    cases h
    exact ⟨rfl, hm, hp⟩
  · cases h

namespace Func

/-- A function that passes the check and lists every value in its block. -/
structure Checked (fn : Func) : Prop where
  problems : fn.problems? = some []
  listed : ∀ {id v}, fn.value? id = some v →
    ∃ b, fn.block? v.block = some b ∧ id ∈ if v.isPhi then b.phis else b.instrs

namespace Checked

variable {fn : Func}

theorem block (h : fn.Checked) {i : BlockId} {b : Block} (hi : fn.block? i = some b) :
    b.id = i ∧ b.instrs ≠ [] ∧ (∀ id ∈ b.phis, fn.phiDefects? b id = some []) ∧
      fn.instrsDefects? b b.instrs = some [] := by
  obtain ⟨n, rfl, hd⟩ := (problems?_eq_nil_iff.mp h.problems).2.1 i b hi
  exact blockDefects?_eq_nil_iff.mp hd

theorem value_id (h : fn.Checked) {i : ValueId} {v : Value} (hi : fn.value? i = some v) :
    v.id = i :=
  (problems?_eq_nil_iff.mp h.problems).2.2.1 i v hi

theorem phi_value (h : fn.Checked) {i : BlockId} {b : Block} {id : ValueId}
    (hi : fn.block? i = some b) (hm : id ∈ b.phis) :
    ∃ v, fn.value? id = some v ∧ v.isPhi = true ∧ v.block = i := by
  obtain ⟨hid, -, hphis, -⟩ := h.block hi
  obtain ⟨v, hv, hp, hb, -⟩ := phiDefects?_eq_nil_iff.mp (hphis id hm)
  exact ⟨v, hv, hp, hb.trans hid⟩

/-- The last instruction of a block is its only terminator. -/
theorem instr_value (h : fn.Checked) {i : BlockId} {b : Block} {id : ValueId}
    {before rest : List ValueId} (hi : fn.block? i = some b)
    (he : b.instrs = before ++ id :: rest) :
    ∃ v, fn.value? id = some v ∧ v.isPhi = false ∧ v.block = i ∧
      v.op.isTerminator = rest.isEmpty ∧ fn.SoundInstr v := by
  obtain ⟨hid, -, -, hinstrs⟩ := h.block hi
  obtain ⟨v, hv, hb, hp, ht, hs⟩ := instrDefects?_eq_nil_iff.mp
    (instrsDefects?_eq_nil_iff.mp hinstrs before id rest he)
  exact ⟨v, hv, hp, hb.trans hid, ht, hs⟩

theorem edges (h : fn.Checked) {id : ValueId} {v : Value} (hv : fn.value? id = some v)
    (hp : v.isPhi = true) :
    ∃ b, fn.block? v.block = some b ∧
      (∀ e ∈ v.edges, e.pred ∈ b.preds ∧ fn.SoundOperand e.arg) ∧
      (v.edges.map (·.pred)).Nodup := by
  obtain ⟨b, hb, hm⟩ := h.listed hv
  rw [if_pos hp] at hm
  obtain ⟨w, hw, -, -, he⟩ := phiDefects?_eq_nil_iff.mp ((h.block hb).2.2.1 id hm)
  obtain rfl : w = v := Option.some.inj (hw.symm.trans hv)
  exact ⟨b, hb, he⟩

theorem instr (h : fn.Checked) {id : ValueId} {v : Value} (hv : fn.value? id = some v)
    (hp : v.isPhi = false) :
    (v.op.isTerminator = true → fn.terminator? v.block = some v) ∧ fn.SoundInstr v := by
  obtain ⟨b, hb, hm⟩ := h.listed hv
  rw [if_neg (by simp [hp])] at hm
  obtain ⟨before, rest, he⟩ := List.append_of_mem hm
  obtain ⟨w, hw, -, -, hlast, hs⟩ := h.instr_value hb he
  obtain rfl : w = v := Option.some.inj (hw.symm.trans hv)
  refine ⟨fun ht => ?_, hs⟩
  have hr : rest = [] := by simpa [ht] using hlast.symm
  simp [terminator?, lastInstr?, hb, he, hr, hv]

end Checked

theorem checked_of_finish {b : Builder} {fn : Func} (htidy : b.Tidy) (h : b.finish = .ok fn) :
    fn.Checked := by
  obtain ⟨rfl, htargets, hproblems⟩ := Builder.finish_eq_ok h
  have hlink := linkable_of_tidy htidy htargets
  refine ⟨hproblems, fun {id v} hv => ?_⟩
  rw [hlink.linked_value?] at hv
  obtain ⟨w, hw, rfl⟩ := Option.map_eq_some_iff.mp hv
  obtain ⟨blk, hblk, hm⟩ := htidy.listed w (mem_of_lookup hw)
  rw [htidy.value_id hw] at hm
  exact ⟨_, (hlink.linked_block? w.block).trans (congrArg _ hblk), hm⟩

theorem wellFormed_of_finish {b : Builder} {fn : Func} (htidy : b.Tidy)
    (h : b.finish = .ok fn) : fn.WellFormed := by
  have hc := checked_of_finish htidy h
  obtain ⟨rfl, htargets, hproblems⟩ := Builder.finish_eq_ok h
  -- The check speaks of the linked function, the lists of users and predecessors of the one before.
  have hlink := linkable_of_tidy htidy htargets
  refine
    { entry_block := ?_, block_id := fun hi => (hc.block hi).1, value_id := hc.value_id,
      phi_value := hc.phi_value, instr_value := ?_, listed := hc.listed,
      terminal := fun hv hp hcount => (hc.instr hv hp).1 (by simp [Opcode.isTerminator, hcount]),
      targets_length := fun hv hp => (hc.instr hv hp).2.targets_length,
      target_block := ?_, jump_operands := ?_, edge_value := ?_, edges_unique := ?_,
      uses_iff := ?_, preds_iff := ?_, succs_iff := ?_, members_sum := ?_ }
  · exact hasBlock_iff.mp (problems?_eq_nil_iff.mp hproblems).1
  · intro i blk id hi hm
    obtain ⟨before, rest, he⟩ := List.append_of_mem hm
    obtain ⟨v, hv, hp, hb, -⟩ := hc.instr_value hi he
    exact ⟨v, hv, hp, hb⟩
  · intro id v c hv hm
    rw [hlink.linked_value?] at hv
    obtain ⟨w, hw, rfl⟩ := Option.map_eq_some_iff.mp hv
    obtain ⟨blk, hblk⟩ := hasBlock_iff.mp
      (missingTarget?_eq_none_iff.mp htargets w (mem_of_lookup hw) c hm)
    exact ⟨_, (hlink.linked_block? c).trans (congrArg _ hblk)⟩
  · intro id v hv hop
    have hp : v.isPhi = false := by simp [Value.isPhi, hop]
    have hlen := (hc.instr hv hp).2.arity 0 (by rw [hop]; rfl)
    have hargs : v.args = [] := List.eq_nil_of_length_eq_zero hlen
    have hedges : v.edges = [] := by
      rw [hlink.linked_value?] at hv
      obtain ⟨w, hw, rfl⟩ := Option.map_eq_some_iff.mp hv
      have hshape := htidy.shaped w (mem_of_lookup hw)
      have hp' : ¬ w.isPhi = true := by simpa [Value.isPhi] using hp
      rwa [Builder.Shaped, if_neg hp'] at hshape
    simp only [Value.operands, hargs, hedges, List.map_nil, List.append_nil]
  · intro id v e d hv hp he harg
    obtain ⟨blk, hblk, hedges, -⟩ := hc.edges hv hp
    have ho := (hedges e he).2
    rw [harg] at ho
    obtain ⟨w, hw, -⟩ := ho
    exact ⟨w, hw⟩
  · intro id v hv hp
    obtain ⟨blk, hblk, -, hnd⟩ := hc.edges hv hp
    exact hnd
  · intro id v u hv
    rw [hlink.linked_value?] at hv
    obtain ⟨w, hw, rfl⟩ := Option.map_eq_some_iff.mp hv
    simp only [hlink.value_id hw, hlink.mem_users, hlink.linked_value?, Option.map_eq_some_iff]
    constructor
    · rintro ⟨x, hx, hb, hr⟩
      exact ⟨_, ⟨x, hx, rfl⟩, hb, hr⟩
    · rintro ⟨_, ⟨x, hx, rfl⟩, hb, hr⟩
      exact ⟨x, hx, hb, hr⟩
  · intro i blk p hi
    rw [hlink.linked_block?] at hi
    obtain ⟨blk₀, hblk, rfl⟩ := Option.map_eq_some_iff.mp hi
    simp only [hlink.block_id hblk, hlink.mem_predecessors, hlink.linked_terminator?,
      Option.map_eq_some_iff]
    constructor
    · rintro ⟨v, hv, hm⟩
      exact ⟨_, ⟨v, hv, rfl⟩, hm⟩
    · rintro ⟨_, ⟨v, hv, rfl⟩, hm⟩
      exact ⟨v, hv, hm⟩
  · intro i blk c hi
    rw [hlink.linked_block?] at hi
    obtain ⟨blk₀, hblk, rfl⟩ := Option.map_eq_some_iff.mp hi
    have hlast : b.func.lastInstr? blk₀ = b.func.terminator? i := by
      simp only [terminator?, hblk, Option.bind_some]
    simp only [mem_successors, hlast, hlink.linked_terminator?, Option.map_eq_some_iff]
    constructor
    · rintro ⟨v, hv, hm⟩
      exact ⟨_, ⟨v, hv, rfl⟩, hm⟩
    · rintro ⟨_, ⟨v, hv, rfl⟩, hm⟩
      exact ⟨v, hv, hm⟩
  · have hsum := htidy.members_sum
    rw [hlink.linked_eq]
    simpa [Block.members, Function.comp_def] using hsum

theorem Accepted.wellFormed {fn : Func} (h : fn.Accepted) : fn.WellFormed := by
  obtain ⟨name, b, hb, hf⟩ := h.built
  exact wellFormed_of_finish hb.tidy hf

theorem WellFormed.mem_members {fn : Func} (wf : fn.WellFormed) {id : ValueId} {v : Value}
    {b : Block} (hv : fn.value? id = some v) (hb : fn.block? v.block = some b) :
    id ∈ b.members := by
  obtain ⟨blk, hblk, hm⟩ := wf.listed hv
  obtain rfl : blk = b := Option.some.inj (hblk.symm.trans hb)
  split at hm
  · exact List.mem_append_left _ hm
  · exact List.mem_append_right _ hm

end Func

end TypeFlow
