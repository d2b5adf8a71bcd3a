import Mathlib.Tactic.SplitIfs
import TypeFlow.Flow.Solver

/-! Two runs over one function, of which one asks for more than the other. They go through the same
states until the one that asks for more fails. -/

namespace TypeFlow

/-- The first action does what the second does, unless the second fails in one of the given ways. -/
def Shadows (P : Failure → Prop) {α : Type} (x y : Action α) : Prop :=
  ∀ s, x s = y s ∨ ∃ f s', y s = .error f s' ∧ P f

namespace Shadows

variable {P : Failure → Prop} {α β : Type}

theorem refl (x : Action α) : Shadows P x x := fun _ => Or.inl rfl

theorem of_throw {f : Failure} (hf : P f) (x : Action α) : Shadows P x (throw f) :=
  fun s => Or.inr ⟨f, s, rfl, hf⟩

theorem bind {x y : Action α} {f g : α → Action β} (h : Shadows P x y)
    (hf : ∀ a, Shadows P (f a) (g a)) : Shadows P (x >>= f) (y >>= g) := by
  intro s
  simp only [Bind.bind, EStateM.bind]
  rcases h s with heq | ⟨f, s', herror, hP⟩
  · rw [heq]
    cases y s with
    | ok a s' => exact hf a s'
    | error f s' => exact Or.inl rfl
  · rw [herror]
    exact Or.inr ⟨f, s', rfl, hP⟩

theorem forM {f g : β → Action PUnit} (h : ∀ x, Shadows P (f x) (g x)) (l : List β) :
    Shadows P (l.forM f) (l.forM g) := by
  induction l with
  | nil => exact .refl _
  | cons x l ih => exact (h x).bind fun _ => ih

end Shadows

/-- Under the first options a run over `fn` asks for no more than under the second, and what it no
longer asks for is what fails in one of the given ways. -/
structure Options.Relaxes (P : Failure → Prop) (fn : Func) (o o' : Options) : Prop where
  branchSuccessors : o.branchSuccessors = o'.branchSuccessors
  order : o.order = o'.order
  emit : ∀ event, Shadows P (Task.emit ⟨fn, o⟩ event) (Task.emit ⟨fn, o'⟩ event)
  transfer : ∀ v, Shadows P (Task.transfer ⟨fn, o⟩ v) (Task.transfer ⟨fn, o'⟩ v)
  check : o.checkMonotonic = o'.checkMonotonic ∨
    o.checkMonotonic = false ∧ ∀ fault, P (.lattice fault)

namespace Options.Relaxes

variable {P : Failure → Prop} {fn : Func} {o o' : Options}

theorem refl (fn : Func) (o : Options) : Relaxes P fn o o where
  branchSuccessors := rfl
  order := rfl
  emit _ := .refl _
  transfer _ := .refl _
  check := Or.inl rfl

theorem of_unchecked (hP : ∀ fault, P (.lattice fault)) (hoff : o.checkMonotonic = false) :
    Relaxes P fn o { o with checkMonotonic := true } where
  branchSuccessors := rfl
  order := rfl
  emit _ := .refl _
  transfer _ := .refl _
  check := Or.inr ⟨hoff, hP⟩

theorem eval (h : Relaxes P fn o o') (v : Value) :
    Shadows P (Task.eval ⟨fn, o⟩ v) (Task.eval ⟨fn, o'⟩ v) := by
  refine (h.emit _).bind fun _ => ?_
  by_cases hphi : v.isPhi = true
  · simp only [hphi, if_true]
    exact .refl _
  · simp only [hphi]
    exact .bind (.refl _) fun _ => h.transfer v

theorem store (h : Relaxes P fn o o') (change : State → State) (event : Event) (uses : List Use) :
    Shadows P (do modify change; Task.emit ⟨fn, o⟩ event; uses.forM Task.schedule)
      (do modify change; Task.emit ⟨fn, o'⟩ event; uses.forM Task.schedule) :=
  .bind (.refl _) fun _ => .bind (h.emit event) fun _ => .refl _

theorem update (h : Relaxes P fn o o') (id : ValueId) (fact : Fact) :
    Shadows P (Task.update ⟨fn, o⟩ id fact) (Task.update ⟨fn, o'⟩ id fact) := by
  refine .bind (.refl _) fun s => .bind (.refl _) fun old => ?_
  by_cases heq : old = fact
  · simp only [heq, if_true]
    exact .refl _
  simp only [heq, if_false]
  refine .bind (.refl _) fun v => .bind (.refl _) fun name => ?_
  by_cases hon : o'.checkMonotonic = true
  · cases Fact.lattice.checkDescent (fn.name ++ "." ++ name) old fact with
    | ok =>
      simp only [ite_self]
      exact h.store _ _ _
    | error fault =>
      -- Only the second run need look at the facts.
      simp only [hon, if_true]
      rcases h.check with hc | ⟨-, hP⟩
      · simp only [hc, hon, if_true]
        exact .refl _
      · exact .of_throw (hP fault) _
  · have hoff : o.checkMonotonic = false := by
      rcases h.check with hc | ⟨hoff, -⟩
      · simpa [hc] using hon
      · exact hoff
    simp only [hon, hoff, Bool.false_eq_true, if_false]
    exact h.store _ _ _

theorem visitValue (h : Relaxes P fn o o') (id : ValueId) :
    Shadows P (Task.visitValue ⟨fn, o⟩ id) (Task.visitValue ⟨fn, o'⟩ id) :=
  .bind (.refl _) fun v => .bind (h.eval v) fun fact => h.update id fact

theorem visitInstr (h : Relaxes P fn o o') (b : Block) (id : ValueId) :
    Shadows P (Task.visitInstr ⟨fn, o⟩ b id) (Task.visitInstr ⟨fn, o'⟩ b id) := by
  refine .bind (.refl _) fun v => .bind (h.eval v) fun fact => .bind (h.update id fact) fun _ => ?_
  simp only [h.branchSuccessors]
  exact .refl _

theorem visitEdge (h : Relaxes P fn o o') (e : Edge) :
    Shadows P (Task.visitEdge ⟨fn, o⟩ e) (Task.visitEdge ⟨fn, o'⟩ e) := by
  refine .bind (.refl _) fun s => ?_
  split_ifs
  · exact .refl _
  refine .bind (.refl _) fun first => .bind (h.emit _) fun _ => .bind (.refl _) fun b => ?_
  refine .bind (.forM h.visitValue _) fun _ => ?_
  split_ifs
  · exact .forM (h.visitInstr b) _
  · exact .refl _

theorem popEdge (h : Relaxes P fn o o') : Task.popEdge ⟨fn, o⟩ = Task.popEdge ⟨fn, o'⟩ := by
  simp only [Task.popEdge, h.order]

theorem popValue (h : Relaxes P fn o o') : Task.popValue ⟨fn, o⟩ = Task.popValue ⟨fn, o'⟩ := by
  simp only [Task.popValue, h.order]

theorem step (h : Relaxes P fn o o') (phase : Task.Phase) :
    Shadows P (Task.step ⟨fn, o⟩ phase) (Task.step ⟨fn, o'⟩ phase) := by
  cases phase with
  | edges =>
    refine .bind (.refl _) fun s => ?_
    split_ifs
    · exact .refl _
    · rw [h.popEdge]
      exact .bind (.refl _) fun e => .bind (h.visitEdge e) fun _ => .refl _
  | values =>
    refine .bind (.refl _) fun s => ?_
    split_ifs
    · exact .refl _
    · rw [h.popValue]
      exact .bind (.refl _) fun id => .bind (h.visitValue id) fun _ => .refl _

/-- The run that asks for less may also be given more steps, if running out of steps is among the
given ways to fail. -/
theorem loop (h : Relaxes P fn o o') {m n : Nat} (hmn : m = n ∨ n ≤ m ∧ P .unsettled)
    (phase : Task.Phase) :
    Shadows P (Task.loop ⟨fn, o⟩ m phase) (Task.loop ⟨fn, o'⟩ n phase) := by
  induction n generalizing m phase with
  | zero =>
    rcases hmn with rfl | ⟨-, hP⟩
    · exact .refl _
    · exact .of_throw hP _
  | succ n ih =>
    obtain ⟨m, rfl⟩ : ∃ k, m = k + 1 := ⟨m - 1, by omega⟩
    refine .bind (h.step phase) fun next => ?_
    cases next with
    | none => exact .refl _
    | some phase => exact ih (hmn.imp (by omega) fun ⟨hle, hP⟩ => ⟨by omega, hP⟩) phase

theorem run (h : Relaxes P fn o o') {m n : Nat} (hmn : m = n ∨ n ≤ m ∧ P .unsettled) :
    Shadows P (Task.run ⟨fn, o⟩ m) (Task.run ⟨fn, o'⟩ n) :=
  .bind (h.emit _) fun _ => .bind (.refl _) fun _ => .bind (h.loop hmn .edges) fun _ =>
    .bind (.refl _) fun _ => h.emit _

theorem analyze (h : Relaxes P fn o o') {m n : Nat} (hmn : m = n ∨ n ≤ m ∧ P .unsettled) :
    Task.analyze ⟨fn, o⟩ m = Task.analyze ⟨fn, o'⟩ n ∨
      ∃ f, (Task.analyze ⟨fn, o'⟩ n).failure = some f ∧ P f := by
  unfold Task.analyze EStateM.run
  rcases h.run hmn (.initial fn) with heq | ⟨f, s', herror, hP⟩
  · exact Or.inl (by rw [heq])
  · exact Or.inr ⟨f, by rw [herror], hP⟩

end Options.Relaxes

end TypeFlow
