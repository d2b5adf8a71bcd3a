import TypeFlow.Proofs.Lockstep
import TypeFlow.Proofs.Reachability

/-! What an analysis finds does not depend on the options that only say when it is to fail: the
target, the check of the facts, and what watches the events. -/

namespace TypeFlow

namespace Options

/-- The options under which a run fails last: nothing is asked for. -/
def lenient (o : Options) : Options where
  branchSuccessors := o.branchSuccessors
  order := o.order
  checkMonotonic := false

variable {fn : Func} {o : Options}

theorem emit_lenient (event : Event) :
    Shadows (fun _ => True) (Task.emit ⟨fn, o.lenient⟩ event) (Task.emit ⟨fn, o⟩ event) := by
  refine .bind (.refl _) fun _ => ?_
  by_cases hw : o.watch event = true
  · simp only [hw]
    exact .refl _
  · simp only [hw]
    exact .of_throw trivial _

theorem transfer_lenient (v : Value) :
    Shadows (fun _ => True) (Task.transfer ⟨fn, o.lenient⟩ v) (Task.transfer ⟨fn, o⟩ v) := by
  unfold Task.transfer
  cases v.op.rule? with
  | some fact => exact .refl _
  | none =>
    cases o.target with
    | none => exact .refl _
    | some target =>
      by_cases hs : target.supports v.op = true
      · simp only [hs, if_true]
        cases fn.valueName? v.id with
        | none => exact .of_throw trivial _
        | some name => exact .of_throw trivial _
      · simp only [hs]
        exact .refl _

theorem lenient_relaxes (fn : Func) (o : Options) : Relaxes (fun _ => True) fn o.lenient o where
  branchSuccessors := rfl
  order := rfl
  emit := emit_lenient
  transfer := transfer_lenient
  check := Or.inr ⟨rfl, fun _ => trivial⟩

/-- A run that ends is a run that nothing is asked of, however many steps that one may take. -/
theorem analyze_lenient {m n : Nat} (h : (Task.analyze ⟨fn, o⟩ m).failure = none) (hmn : m ≤ n) :
    Task.analyze ⟨fn, o.lenient⟩ n = Task.analyze ⟨fn, o⟩ m := by
  rcases (lenient_relaxes fn o).analyze (Or.inr ⟨hmn, trivial⟩) with heq | ⟨f, hf, -⟩
  · exact heq
  · cases h.symm.trans hf

end Options

namespace Task

/-- Two analyses of a function that follow the same branches in the same order and end have the same
outcome: the facts, the reachable blocks, the visited edges, the counts and the events, of which log
and trace are made. Targets, checks and what watches may differ, and one that ends with the check
ends without it. -/
theorem analyze_independent (fn : Func) (o₁ o₂ : Options)
    (hbranch : o₁.branchSuccessors = o₂.branchSuccessors) (horder : o₁.order = o₂.order) :
    (∀ m n, (analyze ⟨fn, o₁⟩ m).failure = none → (analyze ⟨fn, o₂⟩ n).failure = none →
      analyze ⟨fn, o₁⟩ m = analyze ⟨fn, o₂⟩ n) ∧
    (∀ (o : Options) m n, m ≤ n →
      (analyze ⟨fn, { o with checkMonotonic := true }⟩ m).failure = none →
      (analyze ⟨fn, { o with checkMonotonic := false }⟩ n).failure = none) := by
  have hlenient : o₁.lenient = o₂.lenient := by simp only [Options.lenient, hbranch, horder]
  refine ⟨fun m n h₁ h₂ => ?_, fun o m n hmn h => ?_⟩
  · rw [← Options.analyze_lenient h₁ (Nat.le_max_left m n), hlenient]
    exact Options.analyze_lenient h₂ (Nat.le_max_right m n)
  · have hrel : Options.Relaxes (fun _ => True) fn { o with checkMonotonic := false }
        { o with checkMonotonic := true } := .of_unchecked (fun _ => trivial) rfl
    rcases hrel.analyze (Or.inr ⟨hmn, trivial⟩) with heq | ⟨f, hf, -⟩
    · rw [heq]
      exact h
    · cases h.symm.trans hf

/-- The loop, checked and for no target, and for the baseline without the check and traced. -/
theorem analyze_independent_counting :
    let o : Options := { target := some (.new "baseline" Target.baselineOps) }
    let traced := Options.traced { o with checkMonotonic := false } .counting
    (counting.analyze 40).failure = none ∧ (analyze ⟨.counting, traced⟩ 60).failure = none ∧
      counting.analyze 40 = analyze ⟨.counting, traced⟩ 60 ∧
      (analyze ⟨.counting, { o with checkMonotonic := false }⟩ 50).failure = none := by
  intro o traced
  have h₁ : (counting.analyze 40).failure = none := by decide +kernel
  have h₂ : (analyze ⟨.counting, traced⟩ 60).failure = none := by decide +kernel
  obtain ⟨hsame, hends⟩ := analyze_independent .counting {} traced rfl rfl
  exact ⟨h₁, h₂, hsame 40 60 h₁ h₂, hends o 40 50 (by decide) (by decide +kernel)⟩

end Task

end TypeFlow
