import TypeFlow.Proofs.Answering
import TypeFlow.Proofs.Arena

/-! What becomes of a function when its builder finishes it. A function that is sound is accepted, and
any other is refused with a message: whatever the builder was asked before, no step of finishing goes
by a number that names nothing. -/

namespace TypeFlow

namespace Func

/-- What linking goes by is there: a block is found under its number, its last instruction exists,
and so do the blocks that it leads to. -/
structure Anchored (fn : Func) : Prop where
  home : ∀ b ∈ fn.blocks, fn.block? b.id = some b
  last : ∀ b ∈ fn.blocks, ∀ id ∈ b.instrs.getLast?, ∃ v, fn.value? id = some v
  exits : ∀ b ∈ fn.blocks, ∀ t ∈ fn.exits b, ∃ c, fn.block? t = some c

theorem selfNamed_of_number {fn : Func} (hid : ∀ {i v}, fn.value? i = some v → v.id = i) :
    fn.SelfNamed := by
  intro v hv
  exact hasValue_iff.mpr ⟨v, lookup_number hid hv⟩

end Func

namespace Builder

open Func

variable {b : Builder}

theorem Tidy.anchored (h : b.Tidy) (htargets : b.func.missingTarget? = none) :
    b.func.Anchored where
  home blk hblk := lookup_number h.block_id hblk
  last blk hblk id hid := by
    obtain ⟨i, hi⟩ := exists_lookup_of_mem hblk
    have hm : id ∈ blk.instrs := List.mem_of_getLast? hid
    obtain ⟨v, hv, -⟩ := h.member_value false hi hm
    exact ⟨v, hv⟩
  exits blk hblk t ht := by
    obtain ⟨v, hv, hm⟩ := mem_exits.mp ht
    obtain ⟨id, -, hv⟩ := Option.bind_eq_some_iff.mp hv
    exact hasBlock_iff.mp (missingTarget?_eq_none_iff.mp htargets v (mem_of_lookup hv) t hm)

theorem Tidy.linked_problems? (h : b.Tidy) (htargets : b.func.missingTarget? = none) :
    b.func.linked.problems? ≠ none := by
  have hlink := linkable_of_tidy h htargets
  intro hnone
  refine (problems?_eq_none_iff.mp hnone).2 (selfNamed_of_number fun {i v} hv => ?_)
  rw [hlink.linked_value?] at hv
  obtain ⟨w, hw, rfl⟩ := Option.map_eq_some_iff.mp hv
  have hid := hlink.value_id hw
  exact hid

/-- A target that does not exist belongs to a value that has a name. -/
theorem Tidy.missing_name (h : b.Tidy) {id : ValueId} {t : BlockId}
    (hmissing : b.func.missingTarget? = some (id, t)) :
    ∃ name, b.func.valueName? id = some name := by
  obtain ⟨v, hv, hfound⟩ := List.exists_of_findSome?_eq_some hmissing
  obtain ⟨t', -, he⟩ := Option.map_eq_some_iff.mp hfound
  obtain ⟨rfl, rfl⟩ := Prod.mk.inj he
  have hfound : b.func.value? v.id = some v := lookup_number h.value_id hv
  exact exists_valueName hfound

theorem Tidy.finish_ne_dangling (h : b.Tidy) : b.finish ≠ .error .dangling := by
  intro hf
  unfold finish at hf
  split at hf
  · cases hf
  cases hm : b.func.missingTarget? with
  | some missing =>
    obtain ⟨id, t⟩ := missing
    obtain ⟨name, hname⟩ := h.missing_name hm
    simp [hm, hname] at hf
  | none =>
    simp only [hm] at hf
    split at hf
    · next hp => exact h.linked_problems? hm hp
    · cases hf
    · cases hf

theorem Refusal.exists_message {cause : Refusal} (h : cause ≠ .dangling) :
    ∃ message, cause.message? = some message := by
  cases cause with
  | dangling => exact absurd rfl h
  | _ => exact ⟨_, rfl⟩

/-- After any calls that went by existing numbers, a function is finished just if it is sound, and
otherwise it is refused with a message. When its targets exist, so does all that linking goes by. -/
theorem finish_accepts_iff {name : Text} {calls : List Call} (hb : (new name).after calls = some b) :
    ((∃ fn, b.finish = .ok fn) ↔ b.func.Sound) ∧
    (¬ b.func.Sound → ∃ cause message, b.finish = .error cause ∧ cause.message? = some message) ∧
    (b.func.missingTarget? = none → b.func.Anchored) := by
  have htidy : b.Tidy := Leads.tidy ⟨calls, hb⟩
  have hiff : (∃ fn, b.finish = .ok fn) ↔ b.func.Sound := by
    simp only [htidy.finish_eq_ok_iff, exists_eq_left]
  refine ⟨hiff, fun hns => ?_, htidy.anchored⟩
  cases hf : b.finish with
  | ok fn => exact absurd (hiff.mp ⟨fn, hf⟩) hns
  | error cause =>
    obtain ⟨message, hmessage⟩ : ∃ message, cause.message? = some message := by
      refine Refusal.exists_message ?_
      rintro rfl
      exact htidy.finish_ne_dangling hf
    exact ⟨cause, message, rfl, hmessage⟩

/-- The loop is sound, and without its last call, the return, it is refused. -/
theorem finish_accepts_iff_loop :
    (new "loop").after loopCalls = some loopBuilder ∧ loopBuilder.func.Sound ∧
      ∃ b cause message, (new "loop").after loopCalls.dropLast = some b ∧
        b.finish = .error cause ∧ cause.message? = some message := by
  refine ⟨loop_after, (finish_accepts_iff loop_after).1.mp ⟨loopFunc, loop_finish⟩, ?_⟩
  obtain ⟨b, hb⟩ := Option.isSome_iff_exists.mp
    (show ((new "loop").after loopCalls.dropLast).isSome = true by decide +kernel)
  have hnone : (((new "loop").after loopCalls.dropLast).bind (·.finish.toOption)) = none := by
    decide +kernel
  have hns : ¬ b.func.Sound := by
    rw [← (finish_accepts_iff hb).1]
    rintro ⟨fn, hfn⟩
    simp [hb, hfn, Except.toOption] at hnone
  obtain ⟨cause, message, hrefused⟩ := (finish_accepts_iff hb).2.1 hns
  exact ⟨b, cause, message, hb, hrefused⟩

end Builder

end TypeFlow
