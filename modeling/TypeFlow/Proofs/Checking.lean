import Mathlib.Tactic.ByContra
import Mathlib.Tactic.Tauto
import TypeFlow.Proofs.Linking

/-! When the check of a function finds nothing: for each part of it, what has to hold. -/

namespace TypeFlow

namespace Func

variable {fn : Func} {b : Block}

/-- An operand is a literal that is not void, or the value of something that has one. -/
def SoundOperand (fn : Func) : Operand → Prop
  | .literal lit => lit.type ≠ .void
  | .value id => ∃ v, fn.value? id = some v ∧ v.op.hasOutput = true

/-- An instruction has the operands and targets that its opcode takes, and they exist. -/
structure SoundInstr (fn : Func) (v : Value) : Prop where
  valid : v.op.isValid = true
  arity : ∀ n, v.op.arity? = some n → v.args.length = n
  targets_length : v.targets.length = v.op.targetCount
  targets : ∀ t ∈ v.targets, fn.hasBlock t = true
  operands : ∀ o ∈ v.args, fn.SoundOperand o

/-- Whether an operand is sound depends on the opcodes alone. -/
theorem soundOperand_congr {g : Func}
    (hop : ∀ i, (g.value? i).map (·.op) = (fn.value? i).map (·.op)) {o : Operand} :
    g.SoundOperand o ↔ fn.SoundOperand o := by
  cases o with
  | literal lit => rfl
  | value id =>
    have hout : ∀ f : Func, f.SoundOperand (.value id) ↔
        ∃ op, (f.value? id).map (·.op) = some op ∧ op.hasOutput = true := by
      intro f
      cases hv : f.value? id <;> simp [SoundOperand, hv]
    rw [hout, hout, hop]

theorem soundInstr_congr {g : Func} (hop : ∀ i, (g.value? i).map (·.op) = (fn.value? i).map (·.op))
    (hblock : ∀ i, g.hasBlock i = fn.hasBlock i) {v : Value} {uses : List Use} :
    g.SoundInstr { v with uses := uses } ↔ fn.SoundInstr v := by
  constructor
  · rintro ⟨hvalid, harity, hlen, htargets, hargs⟩
    simp only [hblock, soundOperand_congr hop] at htargets hargs
    exact ⟨hvalid, harity, hlen, htargets, hargs⟩
  · rintro ⟨hvalid, harity, hlen, htargets, hargs⟩
    simp only [← hblock, ← soundOperand_congr hop] at htargets hargs
    exact ⟨hvalid, harity, hlen, htargets, hargs⟩

theorem exists_valueName {id : ValueId} {v : Value} (h : fn.value? id = some v) :
    ∃ name, fn.valueName? id = some name := by
  simp [valueName?, h]

theorem operandDefects?_eq_nil_iff {user : Value} {o : Operand} :
    fn.operandDefects? user o = some [] ↔ fn.SoundOperand o := by
  cases o with
  | literal lit =>
    by_cases hv : lit.type = .void <;>
      simp [operandDefects?, SoundOperand, hv, Option.bind_eq_some_iff]
  | value id =>
    cases hv : fn.value? id with
    | none => simp [operandDefects?, SoundOperand, hv, Option.bind_eq_some_iff]
    | some v =>
      by_cases ho : v.op.hasOutput = true <;>
        simp [operandDefects?, SoundOperand, hv, ho, Option.bind_eq_some_iff]

theorem edgeDefects?_eq_nil_iff {phi : Value} {seen : List BlockId} {edges : List Incoming} :
    fn.edgeDefects? b phi seen edges = some [] ↔
      (∀ e ∈ edges, e.pred ∉ seen ∧ e.pred ∈ b.preds ∧ fn.SoundOperand e.arg) ∧
        (edges.map (·.pred)).Nodup := by
  induction edges generalizing seen with
  | nil => simp [edgeDefects?]
  | cons e edges ih =>
    have hstep : fn.edgeDefects? b phi seen (e :: edges) = some [] ↔
        e.pred ∉ seen ∧ e.pred ∈ b.preds ∧ fn.SoundOperand e.arg ∧
          fn.edgeDefects? b phi (e.pred :: seen) edges = some [] := by
      have hoperand : fn.operandDefects? phi e.arg = some [] ↔ fn.SoundOperand e.arg :=
        operandDefects?_eq_nil_iff
      rw [← hoperand]
      by_cases hs : e.pred ∈ seen <;> by_cases hp : e.pred ∈ b.preds <;>
        simp [edgeDefects?, hs, hp, Option.bind_eq_some_iff]
    rw [hstep, ih, List.forall_mem_cons]
    simp only [List.map_cons, List.nodup_cons, List.mem_cons, not_or, List.mem_map, not_exists,
      not_and]
    constructor
    · rintro ⟨hs, hp, ho, hrest, hnd⟩
      exact ⟨⟨⟨hs, hp, ho⟩, fun e' he' => ⟨(hrest e' he').1.2, (hrest e' he').2⟩⟩,
        fun e' he' => (hrest e' he').1.1, hnd⟩
    · rintro ⟨⟨⟨hs, hp, ho⟩, hrest⟩, hne, hnd⟩
      exact ⟨hs, hp, ho, fun e' he' => ⟨⟨hne e' he', (hrest e' he').1⟩, (hrest e' he').2⟩, hnd⟩

theorem phiDefects?_eq_nil_iff {id : ValueId} :
    fn.phiDefects? b id = some [] ↔
      ∃ v, fn.value? id = some v ∧ v.isPhi = true ∧ v.block = b.id ∧
        (∀ e ∈ v.edges, e.pred ∈ b.preds ∧ fn.SoundOperand e.arg) ∧
        (v.edges.map (·.pred)).Nodup := by
  cases hv : fn.value? id with
  | none => simp [phiDefects?, hv]
  | some v =>
    obtain ⟨name, hname⟩ := exists_valueName hv
    have hedges : fn.edgeDefects? b v [] v.edges = some [] ↔
        (∀ e ∈ v.edges, e.pred ∈ b.preds ∧ fn.SoundOperand e.arg) ∧
          (v.edges.map (·.pred)).Nodup := by
      simp [edgeDefects?_eq_nil_iff]
    by_cases hp : v.isPhi = true <;> by_cases hb : v.block = b.id <;>
      simp [phiDefects?, hv, hname, hp, hb, Option.bind_eq_some_iff, ← hedges]

theorem instrDefects?_eq_nil_iff {last : Bool} {id : ValueId} :
    fn.instrDefects? b last id = some [] ↔
      ∃ v, fn.value? id = some v ∧ v.block = b.id ∧ v.isPhi = false ∧
        v.op.isTerminator = last ∧ fn.SoundInstr v := by
  cases hv : fn.value? id with
  | none => simp [instrDefects?, hv]
  | some v =>
    obtain ⟨name, hname⟩ := exists_valueName hv
    unfold instrDefects?
    simp only [hv, hname, Option.bind_eq_bind, Option.bind_some, Option.some.injEq,
      exists_eq_left']
    split
    · next hop =>
      simp only [Option.pure_def, Option.some.injEq, List.append_eq_nil_iff, List.cons_ne_nil,
        and_false, false_iff, not_and]
      intro _ hp _ hs
      simp [hp, hs.valid] at hop
    · next hop =>
      obtain ⟨hvalid, hphi⟩ : v.op.isValid = true ∧ v.isPhi = false := by simpa using hop
      have hoperands := mapM_flatten_eq_nil_iff (f := fn.operandDefects? v) (l := v.args)
      simp only [operandDefects?_eq_nil_iff] at hoperands
      have hterm : (v.op.isTerminator && !last) = false ∧ (last && !v.op.isTerminator) = false ↔
          v.op.isTerminator = last := by
        cases v.op.isTerminator <;> cases last <;> simp
      simp only [Option.bind_eq_some_iff, Option.pure_def, Option.some.injEq,
        List.append_eq_nil_iff]
      constructor
      · rintro ⟨reports, hr, ⟨⟨⟨⟨⟨hplace, hearly⟩, hlate⟩, har⟩, hcount⟩, htargets⟩, hflat⟩
        refine ⟨by simpa using hplace, hphi, hterm.mp ⟨by simpa using hearly, by simpa using hlate⟩,
          hvalid, fun n hn => ?_, by simpa using hcount, by simpa using htargets,
          hoperands.mp ⟨reports, hr, hflat⟩⟩
        rw [hn] at har
        simpa using har
      · rintro ⟨hplace, -, hlast, hs⟩
        obtain ⟨reports, hr, hflat⟩ := hoperands.mpr hs.operands
        obtain ⟨hearly, hlate⟩ := hterm.mpr hlast
        refine ⟨reports, hr, ⟨⟨⟨⟨⟨by simp [hplace], by simp [hearly]⟩, by simp [hlate]⟩, ?_⟩,
          by simp [hs.targets_length]⟩, by simpa using hs.targets⟩, hflat⟩
        cases ha : v.op.arity? with
        | none => rfl
        | some n => simp [hs.arity n ha]

theorem instrsDefects?_eq_nil_iff {ids : List ValueId} :
    fn.instrsDefects? b ids = some [] ↔
      ∀ before id rest, ids = before ++ id :: rest →
        fn.instrDefects? b rest.isEmpty id = some [] := by
  induction ids with
  | nil => simp [instrsDefects?]
  | cons x ids ih =>
    have hstep : fn.instrsDefects? b (x :: ids) = some [] ↔
        fn.instrDefects? b ids.isEmpty x = some [] ∧ fn.instrsDefects? b ids = some [] := by
      simp only [instrsDefects?, Option.bind_eq_bind, Option.bind_eq_some_iff, Option.pure_def,
        Option.some.injEq, List.append_eq_nil_iff]
      constructor
      · rintro ⟨first, hf, others, ho, rfl, rfl⟩
        exact ⟨hf, ho⟩
      · rintro ⟨hf, ho⟩
        exact ⟨[], hf, [], ho, rfl, rfl⟩
    rw [hstep, ih]
    constructor
    · rintro ⟨hx, hids⟩ before id rest he
      cases before with
      | nil =>
        obtain ⟨rfl, rfl⟩ := List.cons.inj he
        exact hx
      | cons y before => exact hids before id rest (List.cons.inj he).2
    · intro h
      refine ⟨h [] x ids rfl, fun before id rest he => ?_⟩
      exact h (x :: before) id rest (by rw [he]; rfl)

theorem blockDefects?_eq_nil_iff {index : Nat} :
    fn.blockDefects? index b = some [] ↔
      b.id = index ∧ b.instrs ≠ [] ∧ (∀ id ∈ b.phis, fn.phiDefects? b id = some []) ∧
        fn.instrsDefects? b b.instrs = some [] := by
  rw [← mapM_flatten_eq_nil_iff]
  simp only [blockDefects?, Option.bind_eq_bind, Option.bind_eq_some_iff, Option.pure_def,
    Option.some.injEq, List.append_eq_nil_iff]
  constructor
  · rintro ⟨phis, hp, instrs, hi, ⟨⟨hid, hne⟩, hphis⟩, rfl⟩
    exact ⟨by simpa using hid, by simpa using hne, ⟨phis, hp, hphis⟩, hi⟩
  · rintro ⟨hid, hne, ⟨phis, hp, hphis⟩, hi⟩
    exact ⟨phis, hp, [], hi, ⟨⟨by simp [hid], by simp [hne]⟩, hphis⟩, rfl⟩

theorem usesDefects?_eq_nil_iff {used : Value} :
    fn.usesDefects? used = some [] ↔
      ∀ u ∈ used.uses, ∃ w, fn.value? u.user = some w ∧ w.block = u.block ∧
        w.refersTo used.id = true := by
  have hone : ∀ u : Use, fn.useDefects? used u = some [] ↔
      ∃ w, fn.value? u.user = some w ∧ w.block = u.block ∧ w.refersTo used.id = true := by
    intro u
    cases hw : fn.value? u.user with
    | none => simp [useDefects?, hw, Option.bind_eq_some_iff]
    | some w =>
      by_cases hb : w.block = u.block <;> by_cases hr : w.refersTo used.id = true <;>
        simp [useDefects?, hw, hb, hr, Option.bind_eq_some_iff]
  have hall := mapM_flatten_eq_nil_iff (f := fn.useDefects? used) (l := used.uses)
  simp only [usesDefects?, Option.map_eq_some_iff, hall, hone]

theorem blocksDefects?_eq_nil_iff :
    (∃ reports, (fn.blocks.zipIdx.mapM fun (b, i) =>
        (fn.blockDefects? i b).map fun ds => ds.map fun d => Problem.mk (some b.label) d) =
          some reports ∧ reports.flatten = []) ↔
      ∀ i b, fn.block? i = some b → ∃ n : Nat, i = n ∧ fn.blockDefects? n b = some [] := by
  rw [mapM_flatten_eq_nil_iff]
  constructor
  · intro h i b hi
    obtain ⟨hpos, hget⟩ := lookup_eq_some.mp hi
    have hd := h (b, i.toNat) (List.mk_mem_zipIdx_iff_getElem?.mpr hget)
    exact ⟨i.toNat, (Int.toNat_of_nonneg hpos).symm, by simpa using hd⟩
  · rintro h ⟨b, n⟩ hm
    obtain ⟨m, hm', hd⟩ := h n b
      ((lookup_natCast _ _).trans (List.mk_mem_zipIdx_iff_getElem?.mp hm))
    obtain rfl : n = m := Int.natCast_inj.mp hm'
    simp [hd]

theorem valuesDefects?_eq_nil_iff :
    (∃ reports, (fn.values.zipIdx.mapM fun (v, i) => fn.valueDefects? i v) = some reports ∧
        reports.flatten = []) ↔
      ∀ i v, fn.value? i = some v → v.id = i := by
  have hone : ∀ (n : Nat) v, fn.valueDefects? n v = some [] ↔ v.id = n := by
    intro n v
    by_cases hn : v.id = n <;> simp [valueDefects?, hn, Option.bind_eq_some_iff]
  rw [mapM_flatten_eq_nil_iff]
  constructor
  · intro h i v hi
    obtain ⟨hpos, hget⟩ := lookup_eq_some.mp hi
    have hd := h (v, i.toNat) (List.mk_mem_zipIdx_iff_getElem?.mpr hget)
    rw [(hone _ _).mp hd, Int.toNat_of_nonneg hpos]
  · rintro h ⟨v, n⟩ hm
    exact (hone _ _).mpr (h n v
      ((lookup_natCast _ _).trans (List.mk_mem_zipIdx_iff_getElem?.mp hm)))

theorem problems?_eq_nil_iff :
    fn.problems? = some [] ↔
      fn.hasBlock fn.entry = true ∧
        (∀ i b, fn.block? i = some b → ∃ n : Nat, i = n ∧ fn.blockDefects? n b = some []) ∧
        (∀ i v, fn.value? i = some v → v.id = i) ∧
        ∀ v ∈ fn.values, ∀ u ∈ v.uses, ∃ w, fn.value? u.user = some w ∧ w.block = u.block ∧
          w.refersTo v.id = true := by
  have huses : (∃ reports, fn.values.mapM fn.usesDefects? = some reports ∧
        reports.flatten = []) ↔
      ∀ v ∈ fn.values, ∀ u ∈ v.uses, ∃ w, fn.value? u.user = some w ∧ w.block = u.block ∧
        w.refersTo v.id = true := by
    simp only [mapM_flatten_eq_nil_iff, usesDefects?_eq_nil_iff]
  rw [← blocksDefects?_eq_nil_iff, ← valuesDefects?_eq_nil_iff, ← huses]
  unfold problems?
  split
  · next hentry => simp_all
  · next hentry =>
    simp only [Option.bind_eq_bind, Option.bind_eq_some_iff, Option.pure_def, Option.some.injEq,
      List.append_eq_nil_iff, List.map_eq_nil_iff, List.flatten_append]
    constructor
    · rintro ⟨blocks, hb, values, hv, uses, hu, hbn, hvn, hun⟩
      exact ⟨by simpa using hentry, ⟨blocks, hb, hbn⟩, ⟨values, hv, hvn⟩, uses, hu, hun⟩
    · rintro ⟨-, ⟨blocks, hb, hbn⟩, ⟨values, hv, hvn⟩, uses, hu, hun⟩
      exact ⟨blocks, hb, values, hv, uses, hu, hbn, hvn, hun⟩

theorem missingTarget?_eq_none_iff :
    fn.missingTarget? = none ↔ ∀ v ∈ fn.values, ∀ t ∈ v.targets, fn.hasBlock t = true := by
  simp [missingTarget?, List.findSome?_eq_none_iff]

theorem hasBlock_iff {i : BlockId} : fn.hasBlock i = true ↔ ∃ b, fn.block? i = some b :=
  inRange_iff

end Func

end TypeFlow
