import TypeFlow.Config
import TypeFlow.Flow.Solver

/-! The options of the analysis that a configuration asks for. -/

namespace TypeFlow

def Config.options (c : Config) : Except Target.Error Options :=
  (Target.select c.target c.enabled c.disabled).map fun target =>
    { target := some target
      branchSuccessors := c.branchSuccessors
      checkMonotonic := c.checkMonotonic }

end TypeFlow
