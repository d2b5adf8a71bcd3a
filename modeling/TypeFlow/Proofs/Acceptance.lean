import TypeFlow.Proofs.WellFormed

/-! Which functions can be finished. What the check asks for is said here without edges and use
lists, of the function as it was built; linking changes nothing of it. -/

namespace TypeFlow

namespace Func

/-- Blocks end in their only terminator, instructions are as their opcodes want them, and incoming
edges come from different blocks that lead to the φ-node. -/
structure Sound (fn : Func) : Prop where
  blocks_ne_nil : fn.blocks ≠ []
  instrs_ne_nil : ∀ b ∈ fn.blocks, b.instrs ≠ []
  closing : ∀ b ∈ fn.blocks, ∀ before id rest, b.instrs = before ++ id :: rest →
    ∀ v, fn.value? id = some v → v.op.isTerminator = rest.isEmpty
  instr : ∀ v ∈ fn.values, v.isPhi = false → fn.SoundInstr v
  edges : ∀ v ∈ fn.values, v.isPhi = true →
    (∀ e ∈ v.edges, (∃ w, fn.terminator? e.pred = some w ∧ v.block ∈ w.targets) ∧
      fn.SoundOperand e.arg) ∧ (v.edges.map (·.pred)).Nodup

namespace Linkable

variable {fn : Func}

theorem linked_hasBlock (h : fn.Linkable) (i : BlockId) : fn.linked.hasBlock i = fn.hasBlock i := by
  rw [h.linked_eq]
  simp [hasBlock]

theorem linked_op (h : fn.Linkable) (i : ValueId) :
    (fn.linked.value? i).map (·.op) = (fn.value? i).map (·.op) := by
  rw [h.linked_value?, Option.map_map]
  rfl

theorem soundOperand_iff (h : fn.Linkable) {o : Operand} :
    fn.linked.SoundOperand o ↔ fn.SoundOperand o :=
  soundOperand_congr h.linked_op

theorem soundInstr_iff (h : fn.Linkable) {v : Value} {uses : List Use} :
    fn.linked.SoundInstr { v with uses := uses } ↔ fn.SoundInstr v :=
  soundInstr_congr h.linked_op h.linked_hasBlock

theorem exists_value (h : fn.Linkable) {v : Value} (hv : v ∈ fn.values) :
    fn.value? v.id = some v ∧ fn.linked.value? v.id = some { v with uses := fn.users v.id } := by
  have hid : fn.value? v.id = some v := lookup_number h.value_id hv
  exact ⟨hid, by rw [h.linked_value?, hid]; rfl⟩

theorem exists_block (h : fn.Linkable) {b : Block} (hb : b ∈ fn.blocks) :
    fn.block? b.id = some b ∧ fn.linked.block? b.id =
      some { b with preds := fn.predecessors b.id, succs := fn.successors b } := by
  have hid : fn.block? b.id = some b := lookup_number h.block_id hb
  exact ⟨hid, by rw [h.linked_block?, hid]; rfl⟩

end Linkable

theorem sound_of_finish {b : Builder} {fn : Func} (htidy : b.Tidy) (h : b.finish = .ok fn) :
    b.func.Sound := by
  have hc := checked_of_finish htidy h
  obtain ⟨rfl, htargets, hproblems⟩ := Builder.finish_eq_ok h
  have hlink := linkable_of_tidy htidy htargets
  refine ⟨?_, fun blk hblk => ?_, fun blk hblk before id rest he v hv => ?_, fun v hv hp => ?_,
    fun v hv hp => ?_⟩
  · intro hnil
    obtain ⟨blk, hblk⟩ := hasBlock_iff.mp (problems?_eq_nil_iff.mp hproblems).1
    rw [hlink.linked_block?] at hblk
    simp [block?, hnil, lookup] at hblk
  · exact (hc.block (hlink.exists_block hblk).2).2.1
  · obtain ⟨w, hw, -, -, hterm, -⟩ := hc.instr_value (hlink.exists_block hblk).2 he
    rw [hlink.linked_value?, hv] at hw
    obtain rfl := Option.some.inj hw
    exact hterm
  · exact hlink.soundInstr_iff.mp (hc.instr (hlink.exists_value hv).2 hp).2
  · obtain ⟨blk, hblk, hedges, hnd⟩ := hc.edges (hlink.exists_value hv).2 hp
    refine ⟨fun e he => ?_, hnd⟩
    obtain ⟨hpred, ho⟩ := hedges e he
    refine ⟨?_, hlink.soundOperand_iff.mp ho⟩
    rw [hlink.linked_block?] at hblk
    obtain ⟨blk₀, hblk₀, rfl⟩ := Option.map_eq_some_iff.mp hblk
    rw [hlink.block_id hblk₀] at hpred
    exact hlink.mem_predecessors.mp hpred

theorem Sound.missingTarget? {b : Builder} (hs : b.func.Sound) (htidy : b.Tidy) :
    b.func.missingTarget? = none := by
  refine missingTarget?_eq_none_iff.mpr fun v hv t ht => ?_
  cases hp : v.isPhi with
  | false => exact (hs.instr v hv hp).targets t ht
  | true =>
    have hshape := htidy.shaped v hv
    rw [Builder.Shaped, if_pos hp] at hshape
    rw [hshape.2] at ht
    simp at ht

theorem Sound.problems? {b : Builder} (hs : b.func.Sound) (htidy : b.Tidy) :
    b.func.linked.problems? = some [] := by
  have hlink := linkable_of_tidy htidy (hs.missingTarget? htidy)
  refine problems?_eq_nil_iff.mpr ⟨?_, fun i blk hi => ?_, fun i v hi => ?_, fun v hv u hu => ?_⟩
  · have hentry := htidy.entry_eq
    obtain ⟨blk, blks, hblocks⟩ := List.exists_cons_of_ne_nil hs.blocks_ne_nil
    have hfirst : b.func.linked.entry = 0 := by
      rw [hlink.linked_eq]
      simpa [hblocks] using hentry
    rw [hfirst, hlink.linked_hasBlock]
    simp [hasBlock, hblocks]
  · rw [hlink.linked_block?] at hi
    obtain ⟨blk₀, hblk, rfl⟩ := Option.map_eq_some_iff.mp hi
    obtain ⟨hpos, -⟩ := lookup_bounds hblk
    have hid := hlink.block_id hblk
    have hmem := mem_of_lookup hblk
    refine ⟨i.toNat, (Int.toNat_of_nonneg hpos).symm, blockDefects?_eq_nil_iff.mpr
      ⟨hid.trans (Int.toNat_of_nonneg hpos).symm, hs.instrs_ne_nil blk₀ hmem, fun id hm => ?_,
        instrsDefects?_eq_nil_iff.mpr fun before id rest he => ?_⟩⟩
    · obtain ⟨v, hv, hp, hb⟩ := htidy.member_value true hblk hm
      obtain ⟨hedges, hnd⟩ := hs.edges v (mem_of_lookup hv) hp
      refine phiDefects?_eq_nil_iff.mpr ⟨_, (hlink.linked_value? id).trans (congrArg _ hv), hp,
        hb.trans hid.symm, fun e he => ?_, hnd⟩
      obtain ⟨hpred, ho⟩ := hedges e he
      refine ⟨hlink.mem_predecessors.mpr ?_, hlink.soundOperand_iff.mpr ho⟩
      rwa [hid, ← hb]
    · have hm : id ∈ blk₀.instrs := by rw [he]; simp
      obtain ⟨v, hv, hp, hb⟩ := htidy.member_value false hblk hm
      exact instrDefects?_eq_nil_iff.mpr ⟨_, (hlink.linked_value? id).trans (congrArg _ hv),
        hb.trans hid.symm, hp, hs.closing _ hmem before id rest he v hv,
        hlink.soundInstr_iff.mpr (hs.instr v (mem_of_lookup hv) hp)⟩
  · rw [hlink.linked_value?] at hi
    obtain ⟨w, hw, rfl⟩ := Option.map_eq_some_iff.mp hi
    have hid := hlink.value_id hw
    exact hid
  · rw [hlink.linked_eq] at hv
    obtain ⟨w, hw, rfl⟩ := List.mem_map.mp hv
    obtain ⟨x, hx, hb, hr⟩ := hlink.mem_users.mp hu
    exact ⟨_, (hlink.linked_value? u.user).trans (congrArg _ hx), hb, hr⟩

end Func

theorem Builder.Tidy.finish_eq_ok_iff {b : Builder} (htidy : b.Tidy) {fn : Func} :
    b.finish = .ok fn ↔ fn = b.func.linked ∧ b.func.Sound := by
  constructor
  · intro h
    exact ⟨(Builder.finish_eq_ok h).1.symm, Func.sound_of_finish htidy h⟩
  · rintro ⟨rfl, hs⟩
    have hne : b.func.blocks.isEmpty = false := by simp [hs.blocks_ne_nil]
    simp [finish, hne, hs.missingTarget? htidy, hs.problems? htidy]

end TypeFlow
