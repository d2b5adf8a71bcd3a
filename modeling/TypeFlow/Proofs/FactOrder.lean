import Mathlib.Data.List.Chain
import Mathlib.Order.Lattice
import TypeFlow.Fact
import TypeFlow.Proofs.LatticeOrder

/-! The order of facts. Everything between `top` and `bottom` is incomparable, so facts form a flat
lattice and a fact descends at most twice. -/

namespace TypeFlow

namespace Fact

theorem top_ne_bottom : top ≠ bottom := by decide

theorem ofBool_ne_top (b : Bool) : ofBool b ≠ top := by simp [ofBool, top]

theorem ofType_ne_top (t : ReprType) : ofType t ≠ top := by simp [ofType, top]

theorem meet_def (a b : Fact) :
    meet a b = if a = bottom ∨ b = bottom then bottom else if a = top then b
      else if b = top then a else if a = b then a else bottom := rfl

/-- A fact lies below another when their meet is the first. -/
instance : LE Fact := ⟨fun a b => meet a b = a⟩

instance (a b : Fact) : Decidable (a ≤ b) := inferInstanceAs (Decidable (meet a b = a))

theorem le_iff {a b : Fact} : a ≤ b ↔ a = bottom ∨ b = top ∨ a = b := by
  have htb := top_ne_bottom
  change meet a b = a ↔ _
  rw [meet_def]
  grind

theorem meet_comm (a b : Fact) : meet a b = meet b a := by
  simp only [meet_def]
  grind

theorem meet_le_left (a b : Fact) : meet a b ≤ a := by
  rw [le_iff, meet_def]
  grind

theorem le_meet {a b c : Fact} (hb : a ≤ b) (hc : a ≤ c) : a ≤ meet b c := by
  have htb := top_ne_bottom
  rw [le_iff] at hb hc ⊢
  rw [meet_def]
  grind

instance : SemilatticeInf Fact where
  le_refl a := le_iff.mpr (Or.inr (Or.inr rfl))
  le_trans a b c hab hbc := by
    have htb := top_ne_bottom
    rw [le_iff] at hab hbc ⊢
    grind
  le_antisymm a b hab hba := by
    have htb := top_ne_bottom
    rw [le_iff] at hab hba
    grind
  inf := meet
  inf_le_left := meet_le_left
  inf_le_right a b := by
    rw [meet_comm]
    exact meet_le_left b a
  le_inf _ _ _ := le_meet

theorem le_meet_iff {a b c : Fact} : a ≤ meet b c ↔ a ≤ b ∧ a ≤ c := le_inf_iff

theorem le_top (f : Fact) : f ≤ top := le_iff.mpr (Or.inr (Or.inl rfl))

theorem bottom_le (f : Fact) : bottom ≤ f := le_iff.mpr (Or.inl rfl)

theorem lattice_lawful : lattice.Lawful where
  le_top := le_top
  bottom_le := bottom_le
  top_ne_bottom := top_ne_bottom
  isGLB_meet {a b} hne hat hab hbt hbb := by
    refine ⟨by simp [lowerBounds, lattice, bottom_le], fun x hx => ?_⟩
    have ha := le_iff.mp (hx (Or.inl rfl))
    have hb := le_iff.mp (hx (Or.inr rfl))
    refine le_iff.mpr (Or.inl ?_)
    rcases ha with ha | ha | rfl
    · exact ha
    · exact absurd ha hat
    · exact hb.resolve_right (not_or.mpr ⟨hbt, hne⟩)

theorem descends_eq (old new : Fact) : lattice.descends old new = .ok (decide (new ≤ old)) := by
  rw [lattice_lawful.descends_eq]
  refine congrArg Except.ok (Bool.eq_iff_iff.mpr ?_)
  rw [beq_iff_eq, decide_eq_true_eq, lattice_lawful.glb_eq_right_iff]

theorem checkDescent_of_le {old new : Fact} (what : Text) (h : new ≤ old) :
    lattice.checkDescent what old new = .ok () := by
  rw [lattice_lawful.checkDescent_eq, if_pos (lattice_lawful.glb_eq_right_iff.mpr h)]

theorem le_of_checkDescent {old new : Fact} {what : Text}
    (h : lattice.checkDescent what old new = .ok ()) : new ≤ old := by
  rw [lattice_lawful.checkDescent_eq] at h
  split at h
  · next hglb => exact lattice_lawful.glb_eq_right_iff.mp hglb
  · cases h

theorem eq_ascent_of_checkDescent {what : Text} {old new : Fact} {fault : Lattice.Fault Fact}
    (h : lattice.checkDescent what old new = .error fault) :
    fault = .ascent what old new (meet old new) := by
  rw [lattice_lawful.checkDescent_eq] at h
  split at h
  · cases h
  · exact (Except.error.inj h).symm

/-- How often a fact can still have descended: never for `top`, twice for `bottom`. -/
def depth (f : Fact) : Nat := if f = top then 0 else if f = bottom then 2 else 1

theorem depth_le_two (f : Fact) : f.depth ≤ 2 := by
  unfold depth
  split_ifs <;> omega

theorem depth_lt_of_descent {old new : Fact} (h : new ≤ old) (hne : old ≠ new) :
    old.depth < new.depth := by
  have htb := top_ne_bottom
  rw [le_iff] at h
  unfold depth
  grind

theorem length_le_of_chain {chain : List Fact} (h : chain.IsChain (· > ·)) : chain.length ≤ 3 := by
  have hdepth : ∀ f (rest : List Fact), (f :: rest).IsChain (· > ·) →
      f.depth + rest.length ≤ 2 := by
    intro f rest
    induction rest generalizing f with
    | nil => exact fun _ => depth_le_two f
    | cons g rest ih =>
      intro hchain
      obtain ⟨hgt, hrest⟩ := List.isChain_cons_cons.mp hchain
      have hlt := depth_lt_of_descent hgt.le hgt.ne'
      have hle := ih g hrest
      rw [List.length_cons]
      omega
  cases chain with
  | nil => exact Nat.zero_le 3
  | cons f rest =>
    have hle := hdepth f rest h
    rw [List.length_cons]
    omega

end Fact

end TypeFlow
