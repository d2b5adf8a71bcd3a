import TypeFlow.Proofs.Acceptance
import TypeFlow.Proofs.Reachability

/-! What the check of a function asks of its use lists: that what they hold does use the value. It
never asks that a user be listed. -/

namespace TypeFlow

namespace Func

/-- The function with nothing in its use lists. -/
def unlisted (fn : Func) : Func := { fn with values := fn.values.map (withUses fun _ => []) }

variable {fn : Func}

theorem unlisted_value? (fn : Func) (i : ValueId) :
    fn.unlisted.value? i = (fn.value? i).map (withUses fun _ => []) :=
  lookup_map _ _ _

theorem unlisted_op (i : ValueId) :
    (fn.unlisted.value? i).map (·.op) = (fn.value? i).map (·.op) := by
  rw [unlisted_value?, Option.map_map]
  rfl

theorem phiDefects?_unlisted {b : Block} {id : ValueId} :
    fn.unlisted.phiDefects? b id = some [] ↔ fn.phiDefects? b id = some [] := by
  rw [phiDefects?_eq_nil_iff, phiDefects?_eq_nil_iff, unlisted_value?]
  simp only [soundOperand_congr unlisted_op]
  cases fn.value? id with
  | none => simp
  | some v => simp [withUses, Value.isPhi]

theorem instrDefects?_unlisted {b : Block} {last : Bool} {id : ValueId} :
    fn.unlisted.instrDefects? b last id = some [] ↔ fn.instrDefects? b last id = some [] := by
  have hinstr : ∀ v, fn.unlisted.SoundInstr (withUses (fun _ => []) v) ↔ fn.SoundInstr v :=
    fun _ => soundInstr_congr unlisted_op fun _ => rfl
  rw [instrDefects?_eq_nil_iff, instrDefects?_eq_nil_iff, unlisted_value?]
  cases fn.value? id with
  | none => simp
  | some v =>
    simp only [Option.map_some, Option.some.injEq, exists_eq_left', hinstr]
    exact Iff.rfl

theorem blockDefects?_unlisted {b : Block} {n : Nat} :
    fn.unlisted.blockDefects? n b = some [] ↔ fn.blockDefects? n b = some [] := by
  simp only [blockDefects?_eq_nil_iff, instrsDefects?_eq_nil_iff, phiDefects?_unlisted,
    instrDefects?_unlisted]

theorem problems?_unlisted :
    fn.unlisted.problems? = some [] ↔ fn.hasBlock fn.entry = true ∧
      (∀ i b, fn.block? i = some b → ∃ n : Nat, i = n ∧ fn.blockDefects? n b = some []) ∧
      ∀ i v, fn.value? i = some v → v.id = i := by
  have hids : (∀ i v, fn.unlisted.value? i = some v → v.id = i) ↔
      ∀ i v, fn.value? i = some v → v.id = i := by
    simp [unlisted_value?, withUses]
  have huses : ∀ v ∈ fn.unlisted.values, v.uses = [] := by
    simp [unlisted, withUses]
  rw [problems?_eq_nil_iff, hids]
  simp only [blockDefects?_unlisted]
  constructor
  · rintro ⟨hentry, hblocks, hvalues, -⟩
    exact ⟨hentry, hblocks, hvalues⟩
  · rintro ⟨hentry, hblocks, hvalues⟩
    refine ⟨hentry, hblocks, hvalues, fun v hv u hu => ?_⟩
    rw [huses v hv] at hu
    cases hu

/-- A function that returns its argument, of which the use list says nothing. -/
def forgetful : Func where
  name := "f"
  entry := 0
  blocks := [{ id := 0, name := "entry", instrs := [0, 1] }]
  values := [{ id := 0, name := "x", block := 0, op := .arg, args := [.literal (.ofInt 0)] },
    { id := 1, block := 0, op := .ret, args := [.value 0] }]

/-- A user that is not listed is no problem. -/
theorem forgetful_passes : forgetful.problems? = some [] ∧
    ∃ u ∈ forgetful.values, ∃ d ∈ forgetful.values,
      u.refersTo d.id = true ∧ ⟨u.id, u.block⟩ ∉ d.uses := by
  decide +kernel

/-- The check finds nothing in a function just if it finds nothing once the use lists are emptied
and everything that they hold is a user. So a value that is listed is a user, but not every user
need be listed. In functions that were accepted it is. -/
theorem check_use_lists (fn : Func) :
    (fn.problems? = some [] ↔ fn.unlisted.problems? = some [] ∧
      ∀ d ∈ fn.values, ∀ use ∈ d.uses,
        ∃ u ∈ fn.values, use = ⟨u.id, u.block⟩ ∧ u.refersTo d.id = true) ∧
    (fn.problems? = some [] → ∀ u ∈ fn.values, ∀ d ∈ fn.values,
      ⟨u.id, u.block⟩ ∈ d.uses → u.refersTo d.id = true) ∧
    (fn.Accepted → ∀ u ∈ fn.values, ∀ d ∈ fn.values,
      (u.refersTo d.id = true ↔ ⟨u.id, u.block⟩ ∈ d.uses)) := by
  refine ⟨?_, fun h u hu d hd hm => ?_, fun hfn u hu d hd => ?_⟩
  · rw [problems?_eq_nil_iff, problems?_unlisted, and_assoc, and_assoc]
    refine and_congr_right fun _ => and_congr_right fun _ => and_congr_right fun hid => ?_
    refine forall₄_congr fun d hd use hm => ?_
    constructor
    · rintro ⟨u, hu, hb, hr⟩
      exact ⟨u, mem_of_lookup hu, by rw [hid _ _ hu, hb], hr⟩
    · rintro ⟨u, hu, rfl, hr⟩
      exact ⟨u, lookup_number (hid _ _) hu, rfl, hr⟩
  · obtain ⟨-, -, hid, huses⟩ := problems?_eq_nil_iff.mp h
    obtain ⟨w, hw, -, hr⟩ := huses d hd _ hm
    obtain rfl : u = w := Option.some.inj ((lookup_number (hid _ _) hu).symm.trans hw)
    exact hr
  · have wf := hfn.wellFormed
    have hu' : fn.value? u.id = some u := lookup_number wf.value_id hu
    rw [wf.uses_iff (lookup_number wf.value_id hd)]
    constructor
    · exact fun hr => ⟨u, hu', rfl, hr⟩
    · rintro ⟨w, hw, -, hr⟩
      obtain rfl : u = w := Option.some.inj (hu'.symm.trans hw)
      exact hr

/-- The loop passes as it was accepted, and with its use lists emptied. -/
theorem check_use_lists_counting :
    counting.Accepted ∧ counting.problems? = some [] ∧ counting.unlisted.problems? = some [] ∧
      counting.unlisted ≠ counting := by
  have hpass : counting.problems? = some [] := by decide +kernel
  exact ⟨counting_accepted, hpass, ((check_use_lists counting).1.mp hpass).1, by decide +kernel⟩

end Func

end TypeFlow
