import TypeFlow.Proofs.IndexSafety
import TypeFlow.Proofs.Layering
import TypeFlow.Proofs.Lockstep
import TypeFlow.Proofs.ReadFunctions
import TypeFlow.Proofs.Unhandled
import TypeFlow.Report.OnFile

/-! The report on a file is made up of the reports on its functions alone. Each function is analysed
and traced for itself, whatever was written before, and the report ends with the first whose
analysis fails. -/

namespace TypeFlow

theorem Options.Relaxes.of_traced (o : Options) (fn : Func) :
    Relaxes (· = .unobserved) fn o (o.traced fn) where
  branchSuccessors := rfl
  order := rfl
  emit event := by
    refine .bind (.refl _) fun _ => ?_
    by_cases hw : (o.traced fn).watch event = true
    · have hwatch : o.watch event = true := by
        rw [watch_traced, Bool.and_eq_true] at hw
        exact hw.2
      simp only [hw, hwatch]
      exact .refl _
    · simp only [hw]
      exact .of_throw (P := (· = .unobserved)) rfl _
  transfer _ := .refl _
  check := Or.inl rfl

namespace Task

variable {t : Task}

/-- Writing a trace does not change the outcome of an analysis. -/
theorem analyze_traced (h : t.func.Finished) (hwatch : ∀ event, t.options.watch event = true)
    (limit : Nat) : t.traced.analyze limit = t.analyze limit := by
  rcases (Options.Relaxes.of_traced t.options t.func).analyze (m := limit) (Or.inl rfl) with
    heq | ⟨f, hf, rfl⟩
  · exact heq.symm
  · -- Refusing an event would need one that has no line in the trace.
    rcases aborts_of_analyze (t := t.traced) hf with ⟨hcut, -⟩ | habort
    · cases hcut
    · have htrace := Occurs.traceable (t := t.traced) h (Or.inr (Or.inr ⟨_, habort⟩))
      have hdeliberate := habort.deliberate (t := t.traced) h.wellFormed
      cases Deliberate.of_traced (t := t) htrace hdeliberate with
      | @refused event _ _ _ hw =>
        rw [hwatch event] at hw
        cases hw

-- Installed on top of another, the hook leaves the other one in place, and every line comes twice.
example : written ⟨.counting, (Options.traced {} .counting).traced .counting⟩
    ⟨none, { State.initial .counting with journal := [.edge ⟨noBlock, 0⟩ true] }⟩ =
      Text.ofString "edge\t-> entry\nedge\t-> entry\n" := by
  decide +kernel

end Task

namespace Report

variable {α β : Type} {limit more : Func → Nat} {mode : Mode} {base : Options} {fn : Func}
  {fns : List Func}

/-! The writer -/

theorem run_bind (x : Writer α) (f : α → Writer β) (w : Written) :
    (x >>= f).run w = (f (x.run w).1).run (x.run w).2 := rfl

/-- The run that a report on a function is about. -/
def outcome (limit : Func → Nat) (mode : Mode) (base : Options) (fn : Func) : Outcome :=
  Task.analyze ⟨fn, if mode.trace then base.traced fn else base⟩ (limit fn)

/-- The analysis of a function for itself. -/
def analysis (limit : Func → Nat) (base : Options) (fn : Func) : Outcome :=
  Task.analyze ⟨fn, base⟩ (limit fn)

def fails (limit : Func → Nat) (base : Options) (fn : Func) : Bool :=
  (analysis limit base fn).failure.isSome

/-- How the analysis of a function may fail, and how a report ends by it. An opcode without a rule
is the error that is returned; a fact that rises while facts are checked ends the program; and the
report goes on for ever only if facts are not checked, unless there were not steps enough. -/
inductive Stops (limit : Func → Nat) (base : Options) (fn : Func) : Failure → Ending → Prop
  | unhandled (value : Text) (op : Opcode) (target : Text) :
    Stops limit base fn (.unhandled fn.name value op target)
      (.returned (some (.unhandled fn.name value op target)))
  | ascent (hcheck : base.checkMonotonic = true) (what : Text) (old new meet : Fact) :
    Stops limit base fn (.lattice (.ascent what old new meet))
      (.crashed (.lattice (.ascent what old new meet)))
  | unsettled (hsteps : base.checkMonotonic = false ∨ limit fn < fn.limit) :
    Stops limit base fn .unsettled .unsettled

/-- A trace does not change the run that it is of. -/
theorem outcome_eq (h : fn.Finished) (hsilent : ∀ event, base.hook event = {}) :
    outcome limit mode base fn = analysis limit base fn := by
  unfold outcome analysis
  cases mode.trace with
  | false => rfl
  | true =>
    refine Task.analyze_traced (t := ⟨fn, base⟩) h (fun event => ?_) _
    rw [Options.watch, hsilent event]

end Report

end TypeFlow
