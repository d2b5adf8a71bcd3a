import Mathlib.Data.List.Perm.Subperm
import TypeFlow.Proofs.Acceptance

/-! What a finished function guarantees about its numbers and lists, whatever was asked of the
builder before: the analysis goes by these lists alone. -/

namespace TypeFlow

namespace Func

/-- The values in the order in which a listing shows them. -/
def printOrder (fn : Func) : List ValueId := fn.blocks.flatMap (·.members)

theorem WellFormed.printOrder_perm {fn : Func} (wf : fn.WellFormed) :
    fn.printOrder.Perm (fn.values.map (·.id)) := by
  have hnd : (fn.values.map (·.id)).Nodup := nodup_of_number wf.value_id
  have hsub : fn.values.map (·.id) ⊆ fn.printOrder := by
    intro id hid
    obtain ⟨v, hv, rfl⟩ := List.mem_map.mp hid
    obtain ⟨n, hn⟩ := exists_lookup_of_mem hv
    obtain ⟨b, hb, hm⟩ := wf.listed hn
    rw [wf.value_id hn]
    exact List.mem_flatMap.mpr ⟨b, mem_of_lookup hb, wf.mem_members hn hb⟩
  have hlen : fn.printOrder.length = (fn.values.map (·.id)).length := by
    have hsum := wf.members_sum
    simpa [printOrder, List.length_flatMap] using hsum
  exact ((List.subperm_of_subset hnd hsub).perm_of_length_le (Nat.le_of_eq hlen)).symm

theorem WellFormed.printOrder_nodup {fn : Func} (wf : fn.WellFormed) : fn.printOrder.Nodup :=
  wf.printOrder_perm.nodup_iff.mpr (nodup_of_number wf.value_id)

/-- Numbers are positions, each value is listed once and where it belongs, each block ends in its
only terminator, and the two kinds of edge lists say the same without repeating themselves. -/
structure Arranged (fn : Func) : Prop where
  entry_eq : fn.entry = 0
  block_id : ∀ (i : Nat) b, fn.blocks[i]? = some b → b.id = i
  value_id : ∀ (i : Nat) v, fn.values[i]? = some v → v.id = i
  listed_once : ∀ v ∈ fn.values, fn.printOrder.count v.id = 1
  listed_only : ∀ id ∈ fn.printOrder, ∃ v ∈ fn.values, v.id = id
  home : ∀ v ∈ fn.values, ∃ b ∈ fn.blocks, b.id = v.block ∧
    v.id ∈ if v.isPhi then b.phis else b.instrs
  closed : ∀ b ∈ fn.blocks, ∃ before v, b.instrs = before ++ [v.id] ∧ v ∈ fn.values ∧
    v.op.isTerminator = true ∧
    (∀ w ∈ fn.values, w.block = b.id → w.op.isTerminator = true → w = v) ∧
    ∀ t, t ∈ b.succs ↔ t ∈ v.targets
  preds_iff : ∀ b ∈ fn.blocks, ∀ p, p ∈ b.preds ↔ ∃ c ∈ fn.blocks, c.id = p ∧ b.id ∈ c.succs
  succs_nodup : ∀ b ∈ fn.blocks, b.succs.Nodup
  preds_nodup : ∀ b ∈ fn.blocks, b.preds.Nodup
  preds_ascending : ∀ b ∈ fn.blocks, b.preds.Pairwise (· < ·)

end Func

namespace Builder

open Func

theorem finish_linkable {b : Builder} {fn : Func} (htidy : b.Tidy) (h : b.finish = .ok fn) :
    b.func.Linkable := linkable_of_tidy htidy (finish_eq_ok h).2.1

/-- A terminator is found nowhere but at the end of its block. -/
theorem finish_closed {b : Builder} {fn : Func} (htidy : b.Tidy) (h : b.finish = .ok fn)
    {blk : Block} (hblk : blk ∈ fn.blocks) :
    ∃ before v, blk.instrs = before ++ [v.id] ∧ v ∈ fn.values ∧ v.op.isTerminator = true ∧
      (∀ w ∈ fn.values, w.block = blk.id → w.op.isTerminator = true → w = v) ∧
      fn.terminator? blk.id = some v := by
  have hc := checked_of_finish htidy h
  obtain ⟨n, hn⟩ := exists_lookup_of_mem hblk
  have hid : blk.id = n := (hc.block hn).1
  obtain ⟨before, last, he⟩ := (List.eq_nil_or_concat blk.instrs).resolve_left (hc.block hn).2.1
  rw [List.concat_eq_append] at he
  obtain ⟨v, hv, -, -, hterm, -⟩ := hc.instr_value hn he
  have hlast : fn.terminator? blk.id = some v := by
    rw [hid, terminator?]
    simp [show fn.block? n = some blk from hn, lastInstr?, he, hv]
  refine ⟨before, v, ?_, mem_of_lookup hv, by simpa using hterm, fun w hw hb ht => ?_, hlast⟩
  · rw [hc.value_id hv, he]
  · obtain ⟨m, hm⟩ := exists_lookup_of_mem hw
    have hp : w.isPhi = false := by
      cases hop : w.op <;> simp_all [Value.isPhi, Opcode.isTerminator, Opcode.targetCount]
    have hfound := (hc.instr hm hp).1 ht
    rw [hb, hlast] at hfound
    exact (Option.some.inj hfound).symm

/-- A loop. The first call comes before there is a block, one asks for a φ-node as an instruction,
and one adds an edge to a jump; these three are refused. -/
def loopCalls : List Call :=
  [.emit .nop [], .block "entry", .setBlock 0, .instr .phi [] [], .block "head", .jmp 1,
    .block "body", .block "exit", .setBlock 1, .phi [⟨0, .literal (.ofInt 0)⟩],
    .addEdge 0 0 (.value 1), .emit .ltI32 [.value 1, .literal (.ofInt 10)], .br (.value 2) 2 3,
    .setBlock 2, .emit .addI32 [.value 1, .value 1], .jmp 1, .addEdge 1 2 (.value 4),
    .setBlock 3, .ret [.value 1]]

def loopBuilder : Builder := ((new "loop").after loopCalls).get (by decide +kernel)

def loopFunc : Func := loopBuilder.finish.toOption.get (by decide +kernel)

theorem loop_after : (new "loop").after loopCalls = some loopBuilder := (Option.some_get _).symm

theorem loop_finish : loopBuilder.finish = .ok loopFunc := by
  have hfn : loopBuilder.finish.toOption = some loopFunc := (Option.some_get _).symm
  cases hf : loopBuilder.finish with
  | error _ => simp [hf, Except.toOption] at hfn
  | ok _ => simpa [hf, Except.toOption] using hfn

/-- What comes out of a builder is arranged, whichever calls were made, refused ones among them. -/
theorem finish_arranged {name : Text} {calls : List Call} {b : Builder} {fn : Func}
    (hb : (new name).after calls = some b) (h : b.finish = .ok fn) : fn.Arranged := by
  have htidy : b.Tidy := Leads.tidy ⟨calls, hb⟩
  have wf := wellFormed_of_finish htidy h
  have hlink := finish_linkable htidy h
  have hsound := sound_of_finish htidy h
  have hfn : fn = b.func.linked := (finish_eq_ok h).1.symm
  have hblock : ∀ blk ∈ fn.blocks, ∃ blk₀ ∈ b.func.blocks,
      blk = { blk₀ with
        preds := b.func.predecessors blk₀.id, succs := b.func.successors blk₀ } := by
    intro blk hblk
    rw [hfn, hlink.linked_eq] at hblk
    obtain ⟨blk₀, hblk₀, rfl⟩ := List.mem_map.mp hblk
    exact ⟨blk₀, hblk₀, rfl⟩
  have hfind : ∀ blk ∈ fn.blocks, fn.block? blk.id = some blk := by
    intro blk hblk
    obtain ⟨n, hn⟩ := exists_lookup_of_mem hblk
    rw [wf.block_id hn]
    exact hn
  have hascending : ∀ blk ∈ fn.blocks, blk.preds.Pairwise (· < ·) := by
    intro blk hblk
    obtain ⟨blk₀, -, rfl⟩ := hblock blk hblk
    exact (sorted_of_number hlink.block_id).sublist (List.filter_sublist.map _)
  refine
    { entry_eq := ?_, block_id := fun i blk hi => ?_, value_id := fun i v hi => ?_,
      listed_once := fun v hv => ?_, listed_only := fun id hid => ?_, home := fun v hv => ?_,
      closed := fun blk hblk => ?_, preds_iff := fun blk hblk p => ?_,
      succs_nodup := fun blk hblk => ?_,
      preds_nodup := fun blk hblk => (hascending blk hblk).imp Int.ne_of_lt,
      preds_ascending := hascending }
  · rw [hfn, hlink.linked_eq]
    simpa [hsound.blocks_ne_nil] using htidy.entry_eq
  · exact wf.block_id ((lookup_natCast fn.blocks i).trans hi)
  · exact wf.value_id ((lookup_natCast fn.values i).trans hi)
  · refine List.count_eq_one_of_mem wf.printOrder_nodup ?_
    exact wf.printOrder_perm.mem_iff.mpr (List.mem_map_of_mem hv)
  · simpa using wf.printOrder_perm.mem_iff.mp hid
  · obtain ⟨n, hn⟩ := exists_lookup_of_mem hv
    obtain ⟨blk, hblk, hm⟩ := wf.listed hn
    refine ⟨blk, mem_of_lookup hblk, wf.block_id hblk, ?_⟩
    rwa [wf.value_id hn]
  · obtain ⟨before, v, hinstrs, hv, hterm, hunique, hlast⟩ := finish_closed htidy h hblk
    refine ⟨before, v, hinstrs, hv, hterm, hunique, fun t => ?_⟩
    rw [wf.succs_iff (hfind blk hblk), hlast]
    simp
  · rw [wf.preds_iff (hfind blk hblk)]
    constructor
    · rintro ⟨v, hv, hm⟩
      obtain ⟨c, hc, -⟩ := Option.bind_eq_some_iff.mp hv
      exact ⟨c, mem_of_lookup hc, wf.block_id hc, (wf.succs_iff hc).mpr ⟨v, hv, hm⟩⟩
    · rintro ⟨c, hc, rfl, hm⟩
      exact (wf.succs_iff (hfind c hc)).mp hm
  · obtain ⟨blk₀, -, rfl⟩ := hblock blk hblk
    exact nodup_successors b.func blk₀

theorem finish_arranged_loop :
    (new "loop").after loopCalls = some loopBuilder ∧ loopBuilder.finish = .ok loopFunc ∧
      loopFunc.Arranged :=
  ⟨loop_after, loop_finish, finish_arranged loop_after loop_finish⟩

theorem filter_id_eq_singleton {values : List Value}
    (hid : ∀ {i v}, lookup values i = some v → v.id = i) {u : Value} (hu : u ∈ values) :
    values.filter (·.id == u.id) = [u] := by
  have hnd : (values.map (·.id)).Nodup := nodup_of_number hid
  have hsame : ∀ w ∈ values, (w.id == u.id) = (w == u) := by
    intro w hw
    rw [Bool.eq_iff_iff, beq_iff_eq, beq_iff_eq]
    exact ⟨List.inj_on_of_nodup_map hnd hw hu, fun he => he ▸ rfl⟩
  rw [List.filter_congr hsame, List.filter_beq, List.count_eq_one_of_mem hnd.of_map hu]
  rfl

/-- The check alone makes sure that values stand at their numbers. -/
theorem finish_value_id {b : Builder} {fn : Func} (h : b.finish = .ok fn) {i : ValueId} {v : Value}
    (hv : b.func.value? i = some v) : v.id = i := by
  obtain ⟨rfl, -, hproblems⟩ := finish_eq_ok h
  have hids : (b.func.linked.value? i).map (·.id) = some v.id := by
    have hmap := congrArg (lookup · i) b.func.map_id_usage
    simp only [lookup_map] at hmap
    exact hmap.trans (congrArg (Option.map (·.id)) hv)
  obtain ⟨w, hw, he⟩ := Option.map_eq_some_iff.mp hids
  rw [← he]
  exact (problems?_eq_nil_iff.mp hproblems).2.2.1 i w hw

/-- Use lists are exact in whatever a builder finishes: `u` is listed among the users of `d` when it
refers to `d`, and then once and with its block, and users come in ascending order. -/
theorem finish_uses_exact {b : Builder} {fn : Func} (h : b.finish = .ok fn) {d : Value}
    (hd : d ∈ fn.values) :
    (∀ u ∈ fn.values, d.uses.filter (·.user == u.id) =
      if .value d.id ∈ u.args ∨ ∃ e ∈ u.edges, e.arg = .value d.id then [⟨u.id, u.block⟩] else []) ∧
    (∀ use ∈ d.uses, ∃ u ∈ fn.values, u.id = use.user) ∧
    d.uses.Pairwise fun x y => x.user < y.user := by
  have hid : ∀ {i v}, b.func.value? i = some v → v.id = i := finish_value_id h
  have hvalues : fn.values = b.func.values.map (withUses b.func.users) := by
    rw [← (finish_eq_ok h).1]
    exact usage_eq hid
  rw [hvalues] at hd ⊢
  obtain ⟨d, -, rfl⟩ := List.mem_map.mp hd
  refine ⟨fun u hu => ?_, fun use huse => ?_, ?_⟩
  · obtain ⟨u, hu', rfl⟩ := List.mem_map.mp hu
    have hrefers : u.refersTo d.id = true ↔
        .value d.id ∈ u.args ∨ ∃ e ∈ u.edges, e.arg = .value d.id := by
      simp [Value.refersTo, Value.operands]
    have hone : b.func.values.filter (·.id == u.id) = [u] := filter_id_eq_singleton hid hu'
    simp only [withUses, users, List.filter_map, Function.comp_def, ← hrefers]
    rw [List.filter_comm, hone]
    by_cases hr : u.refersTo d.id = true <;> simp [hr]
  · obtain ⟨u, hu, rfl⟩ := List.mem_map.mp huse
    exact ⟨_, List.mem_map_of_mem (List.mem_filter.mp hu).1, rfl⟩
  · have hsub : (b.func.values.filter (·.refersTo d.id)).Sublist b.func.values :=
      List.filter_sublist
    have hsorted := (sorted_of_number hid).sublist (hsub.map (·.id))
    simp only [withUses, users, List.pairwise_map] at hsorted ⊢
    exact hsorted

/-- The sum refers to the φ-node twice and is listed once. -/
theorem finish_uses_exact_loop :
    ∃ d ∈ loopFunc.values, ∃ u ∈ loopFunc.values, u.args = [.value d.id, .value d.id] ∧
      d.uses.filter (·.user == u.id) = [⟨u.id, u.block⟩] := by
  have hd : loopFunc.values.get ⟨1, by decide +kernel⟩ ∈ loopFunc.values := List.get_mem _ _
  have hu : loopFunc.values.get ⟨4, by decide +kernel⟩ ∈ loopFunc.values := List.get_mem _ _
  refine ⟨_, hd, _, hu, by decide +kernel, ?_⟩
  rw [(finish_uses_exact loop_finish hd).1 _ hu, if_pos (Or.inl (by decide +kernel))]

end Builder

end TypeFlow
