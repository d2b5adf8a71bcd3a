import Mathlib.Order.Bounds.Basic
import TypeFlow.Lattice

/-! The order behind a lattice. A meet has to be right only for two distinct elements between the
greatest and the least one, which are all that it is asked for. Then the operations of the lattice
go by the order throughout. -/

namespace TypeFlow.Lattice

variable {α : Type} [PartialOrder α]

/-- `top` and `bottom` are the greatest and the least element, and `meet` gives the greatest lower
bound of two distinct elements that are neither. -/
structure Lawful (l : Lattice α) : Prop where
  le_top : ∀ a, a ≤ l.top
  bottom_le : ∀ a, l.bottom ≤ a
  top_ne_bottom : l.top ≠ l.bottom
  isGLB_meet : ∀ {a b}, a ≠ b → a ≠ l.top → a ≠ l.bottom → b ≠ l.top → b ≠ l.bottom →
    IsGLB {a, b} (l.meet a b)

namespace Lawful

variable [DecidableEq α] {l : Lattice α}

theorem le_glb_iff (h : l.Lawful) {x a b : α} : x ≤ l.glb a b ↔ x ≤ a ∧ x ≤ b := by
  have htop := h.le_top
  have hbottom := h.bottom_le
  unfold glb
  split_ifs with hbot hat hbt heq
  · refine ⟨fun hx => ⟨hx.trans (hbottom a), hx.trans (hbottom b)⟩, fun hx => ?_⟩
    rcases hbot with rfl | rfl
    · exact hx.1
    · exact hx.2
  · simp [hat, htop x]
  · simp [hbt, htop x]
  · simp [heq]
  · rw [not_or] at hbot
    rw [isGLB_iff_le_iff.mp (h.isGLB_meet heq hat hbot.1 hbt hbot.2) x]
    simp [lowerBounds]

theorem isGLB_glb (h : l.Lawful) (a b : α) : IsGLB {a, b} (l.glb a b) := by
  refine isGLB_iff_le_iff.mpr fun x => ?_
  rw [h.le_glb_iff]
  simp [lowerBounds]

theorem glb_comm (h : l.Lawful) (a b : α) : l.glb a b = l.glb b a := by
  refine eq_of_forall_le_iff fun x => ?_
  rw [h.le_glb_iff, h.le_glb_iff, and_comm]

theorem glb_assoc (h : l.Lawful) (a b c : α) : l.glb (l.glb a b) c = l.glb a (l.glb b c) := by
  refine eq_of_forall_le_iff fun x => ?_
  simp only [h.le_glb_iff, and_assoc]

theorem glb_eq_right_iff (h : l.Lawful) {a b : α} : l.glb a b = b ↔ b ≤ a := by
  constructor
  · intro he
    exact (h.le_glb_iff.mp he.ge).1
  · intro hle
    exact le_antisymm (h.le_glb_iff.mp le_rfl).2 (h.le_glb_iff.mpr ⟨hle, le_rfl⟩)

theorem glb_eq_left_iff (h : l.Lawful) {a b : α} : l.glb a b = a ↔ a ≤ b := by
  rw [h.glb_comm, h.glb_eq_right_iff]

theorem apply_eq (h : l.Lawful) (a b : α) : l.apply a b = .ok (l.glb a b) :=
  if_neg h.top_ne_bottom

theorem descends_eq (h : l.Lawful) (old new : α) :
    l.descends old new = .ok (l.glb old new == new) := by
  rw [descends, h.apply_eq]
  rfl

theorem checkDescent_eq (h : l.Lawful) (what : Text) (old new : α) :
    l.checkDescent what old new = if l.glb old new = new then .ok ()
      else .error (.ascent what old new (l.glb old new)) := by
  unfold checkDescent
  split_ifs with heq hglb hglb
  · rfl
  · exact absurd (h.glb_eq_right_iff.mpr heq.ge) hglb
  · simp only [h.apply_eq, if_pos hglb]
  · simp only [h.apply_eq, if_neg hglb]

end Lawful

end TypeFlow.Lattice
