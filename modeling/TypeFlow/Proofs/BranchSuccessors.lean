import TypeFlow.Proofs.GreatestSolution

/-! Following branches, too. Control gets to more blocks along more edges then, and on a strict
function the facts can only sink: what the larger solution supports is supported where fewer edges
are followed, and the smaller solution is the greatest of that kind. -/

namespace TypeFlow

namespace Func

variable {fn : Func} {branch branch' : Bool} {b c : BlockId}

theorem Follows.mono (hle : branch = true → branch' = true) (h : fn.Follows branch b c) :
    fn.Follows branch' b c := by
  obtain ⟨v, hv, hc, hop⟩ := h
  exact ⟨v, hv, hc, hop.imp_right (And.imp_right hle)⟩

theorem Live.mono (hle : branch = true → branch' = true) (h : fn.Live branch b) :
    fn.Live branch' b :=
  Relation.ReflTransGen.mono (fun _ _ hf => Follows.mono hle hf) _ _ h

theorem Supports.anti {V : ValueId → Fact} (hle : branch = true → branch' = true)
    (h : fn.Supports branch' V) : fn.Supports branch V where
  instr hv hlive hp := h.instr hv (Live.mono hle hlive) hp
  phi hv hp hi hlive hfollows := h.phi hv hp hi (Live.mono hle hlive) (hfollows.mono hle)

end Func

namespace Task

section

variable {fn : Func} {o o' : Options} {s s' : State}

theorem Returns.isReachable_mono (wf : fn.WellFormed) (h : Returns ⟨fn, o⟩ s)
    (h' : Returns ⟨fn, o'⟩ s') (hle : o.branchSuccessors = true → o'.branchSuccessors = true)
    {b : BlockId} (hb : s.isReachable b = true) : s'.isReachable b = true :=
  (h'.isReachable_iff wf).mpr (Func.Live.mono hle ((h.isReachable_iff wf).mp hb))

theorem Returns.isVisited_mono (wf : fn.WellFormed) (h : Returns ⟨fn, o⟩ s)
    (h' : Returns ⟨fn, o'⟩ s') (hle : o.branchSuccessors = true → o'.branchSuccessors = true)
    {e : Edge} (he : s.isVisited e = true) : s'.isVisited e = true := by
  refine (h'.isVisited_iff wf).mpr (((h.isVisited_iff wf).mp he).imp_right ?_)
  rintro ⟨hsrc, hfollows⟩
  exact ⟨h.isReachable_mono wf h' hle hsrc, hfollows.mono hle⟩

theorem Returns.assignment_anti (hs : fn.Strict) (wf : fn.WellFormed) (h : Returns ⟨fn, o⟩ s)
    (h' : Returns ⟨fn, o'⟩ s') (hle : o.branchSuccessors = true → o'.branchSuccessors = true)
    (id : ValueId) : s'.assignment id ≤ s.assignment id := by
  have hsupports : fn.Supports o'.branchSuccessors s'.assignment :=
    (h'.solves hs wf).supports wf h'
  exact h.above hs wf (hsupports.anti hle) id

end

/-- On a strict function, a run that follows branches reaches every block and visits every edge of a
run that does not, and what it finds out about a value lies below what that one does. The other
options and the order in which items are taken may differ. -/
theorem branches_only_lower {fn : Func} (hfn : fn.Accepted) (hs : fn.Strict) {o o' : Options}
    {s₀ s₁ : State} (h₀ : Returns ⟨fn, { o with branchSuccessors := false }⟩ s₀)
    (h₁ : Returns ⟨fn, { o' with branchSuccessors := true }⟩ s₁) :
    (∀ b, s₀.isReachable b = true → s₁.isReachable b = true) ∧
    (∀ e, s₀.isVisited e = true → s₁.isVisited e = true) ∧
    ∀ id v, fn.value? id = some v →
      ∃ f₀ f₁, s₀.fact? id = some f₀ ∧ s₁.fact? id = some f₁ ∧ f₁ ≤ f₀ := by
  have wf := hfn.wellFormed
  refine ⟨fun b => h₀.isReachable_mono wf h₁ fun _ => rfl,
    fun e => h₀.isVisited_mono wf h₁ fun _ => rfl, fun id v hv => ?_⟩
  obtain ⟨f₀, hf₀⟩ := Solution.exists_fact (h₀.facts_length wf) hv
  obtain ⟨f₁, hf₁⟩ := Solution.exists_fact (h₁.facts_length wf) hv
  have hfact := h₀.assignment_anti hs wf h₁ (fun _ => rfl) id
  rw [Solution.assignment_eq_of_fact? hf₀, Solution.assignment_eq_of_fact? hf₁] at hfact
  exact ⟨f₀, f₁, hf₀, hf₁, hfact⟩

/-- Control leaves the loop only along its branch, so what is returned behind it is known to be
nothing in particular where branches are followed, and not known at all where they are not. -/
theorem branches_only_lower_counting :
    let o : Options := {}
    let s₀ := (analyze ⟨.counting, { o with branchSuccessors := false }⟩ 40).state
    let s₁ := (analyze ⟨.counting, { o with branchSuccessors := true }⟩ 40).state
    Func.counting.Accepted ∧ Func.counting.Strict ∧
      Returns ⟨.counting, { o with branchSuccessors := false }⟩ s₀ ∧
      Returns ⟨.counting, { o with branchSuccessors := true }⟩ s₁ ∧
      (∀ b, s₀.isReachable b = true → s₁.isReachable b = true) ∧
      s₀.isReachable 2 = false ∧ s₁.isReachable 2 = true ∧
      s₀.fact? 5 = some Fact.top ∧ s₁.fact? 5 = some Fact.bottom := by
  intro o s₀ s₁
  have h₀ : Returns ⟨.counting, { o with branchSuccessors := false }⟩ s₀ :=
    returns_of_analyze (by decide +kernel)
  have h₁ : Returns ⟨.counting, { o with branchSuccessors := true }⟩ s₁ :=
    returns_of_analyze (by decide +kernel)
  obtain ⟨hreach, -⟩ := branches_only_lower Func.counting_accepted counting_strict h₀ h₁
  exact ⟨Func.counting_accepted, counting_strict, h₀, h₁, hreach, by decide +kernel,
    by decide +kernel, by decide +kernel, by decide +kernel⟩

end Task

end TypeFlow
