import TypeFlow.Proofs.Strict

/-! Facts that would rise. A run that checks its facts fails at the first of them, and that one is
always a φ-node which becomes unknown again because something unknown has begun to flow in. In
strict functions this does not happen. -/

namespace TypeFlow

namespace Fact

theorem meet_top (f : Fact) : meet f top = f := (meet_comm f top).trans (inf_of_le_right (le_top f))

end Fact

namespace Task

variable {t : Task}

/-- Every lower bound of what flows into a value lies below the fact of the value. -/
structure Capped (t : Task) (s : State) : Prop where
  instr : ∀ {id v}, t.func.value? id = some v → v.isPhi = false → v.op.fact ≤ s.assignment id
  phi : ∀ {id v a}, t.func.value? id = some v → v.isPhi = true →
    (∀ i ∈ v.edges, s.isVisited ⟨i.pred, v.block⟩ = true → a ≤ i.arg.fact s.assignment) →
    a ≤ s.assignment id

namespace Capped

theorem begin {s : State} (h : t.begin (.initial t.func) = .ok () s) : t.Capped s := by
  obtain rfl := begin_eq h
  have htop : ∀ id, (State.initial t.func).assignment id = Fact.top :=
    congrFun (State.recorded_initial t.func).facts_eq
  constructor
  · intro id v _ _
    exact (Fact.le_top _).trans_eq (htop id).symm
  · intro id v a _ _ _
    exact (Fact.le_top _).trans_eq (htop id).symm

theorem enter {s : State} (h : t.Capped s) (e : Edge) : t.Capped (s.entered e) := by
  refine ⟨h.instr, fun hv hp hin => h.phi hv hp fun i hi hvis => ?_⟩
  exact hin i hi ((State.isVisited_entered _ _ _).mpr (Or.inr hvis))

theorem evaluates (wf : t.func.WellFormed) {s s' : State} (h : t.Capped s) {id : ValueId}
    {v : Value} (hv : t.func.value? id = some v) (hfalls : t.Falls s) (he : t.Evaluates v s s') :
    t.Capped s' := by
  have hsink : ∀ x, s'.assignment x ≤ s.assignment x := he.assignment_le wf hv hfalls
  constructor
  · intro x w hw hp
    rcases he.assignment_cases x with ⟨hx, hf⟩ | ⟨-, hx⟩
    · obtain rfl : w = v := Option.some.inj (hw.symm.trans (hx.trans (wf.value_id hv) ▸ hv))
      rw [Solution.valueFact?_of_not_isPhi hp] at hf
      exact le_of_eq (Option.some.inj hf)
    · rw [hx]
      exact h.instr hw hp
  · intro x w a hw hp hin
    -- What lies below the facts that flow in now lay below those that flowed in before.
    have hin' : ∀ i ∈ w.edges, s.isVisited ⟨i.pred, w.block⟩ = true →
        a ≤ i.arg.fact s.assignment := by
      intro i hi hvis
      rw [← he.effect.isVisited_eq] at hvis
      exact (hin i hi hvis).trans (i.arg.fact_mono hsink)
    rcases he.assignment_cases x with ⟨hx, hf⟩ | ⟨-, hx⟩
    · obtain rfl : w = v := Option.some.inj (hw.symm.trans (hx.trans (wf.value_id hv) ▸ hv))
      rw [Solution.valueFact?, if_pos hp] at hf
      exact Solution.le_phiFact? hin' hf
    · rw [hx]
      exact h.phi hw hp hin'

/-- A fact rises only where a φ-node becomes unknown together with something that flows in. -/
theorem rise {s : State} (h : t.Capped s) {id : ValueId} {v : Value} {f : Fact}
    (hv : t.func.value? id = some v) (hf : s.valueFact? v = some f)
    (hrise : ¬ f ≤ s.assignment id) :
    v.isPhi = true ∧ f = Fact.top ∧ ∃ i ∈ v.edges, s.isVisited ⟨i.pred, v.block⟩ = true ∧
      s.operand? i.arg = some Fact.top := by
  cases hp : v.isPhi with
  | false =>
    rw [Solution.valueFact?_of_not_isPhi hp] at hf
    rw [← Option.some.inj hf] at hrise
    exact absurd (h.instr hv hp) hrise
  | true =>
    rw [Solution.valueFact?, if_pos hp] at hf
    rcases Solution.phiFact?_cases hf with ⟨htop, hin⟩ | hbelow
    · exact ⟨rfl, htop, hin⟩
    · exact absurd (h.phi hv hp hbelow) hrise

end Capped

theorem steady_capped (wf : t.func.WellFormed) : t.Steady t.Capped where
  begin hb := .begin hb
  queues _ _ _ h := ⟨h.instr, h.phi⟩
  entered e h := h.enter e
  evaluates hv hfalls he h := h.evaluates wf hv hfalls he

/-- The φ-node `phi` of a reachable block, of which `old` was known, is about to become unknown
since something unknown flows in along a visited edge. -/
structure Relapses (t : Task) (s : State) (phi : ValueId) (old : Fact) : Prop where
  known : s.fact? phi = some old ∧ old ≠ Fact.top
  fed : ∃ v, t.func.value? phi = some v ∧ v.isPhi = true ∧ s.isReachable v.block = true ∧
    ∃ i ∈ v.edges, s.isVisited ⟨i.pred, v.block⟩ = true ∧ s.operand? i.arg = some Fact.top

theorem Breaks.relapses (wf : t.func.WellFormed) {s s' : State} (h : t.Capped s) {id : ValueId}
    {v : Value} (hv : t.func.value? id = some v) (hr : s.isReachable v.block = true)
    {fault : Lattice.Fault Fact} (hb : t.Breaks v s (.lattice fault) s') :
    ∃ name old, t.Relapses s' id old ∧ t.func.valueName? id = some name ∧
      fault = .ascent (t.func.name ++ "." ++ name) old Fact.top old := by
  have hid := wf.value_id hv
  cases hb with
  | @ascent old new name fault hf hold hcheck hnle hname hfault =>
    rw [hid] at hold hname
    rw [← Solution.assignment_eq_of_fact? hold] at hnle
    obtain ⟨hp, rfl, hin⟩ := h.rise hv hf hnle
    have hne : old ≠ Fact.top := by
      rintro rfl
      exact hnle (le_of_eq (Solution.assignment_eq_of_fact? hold).symm)
    have heq := Fact.eq_ascent_of_checkDescent hfault
    rw [Fact.meet_top] at heq
    exact ⟨name, old, ⟨⟨hold, hne⟩, v, hv, hp, hr, hin⟩, hname, heq⟩

theorem Aborts.relapses (wf : t.func.WellFormed)
    (hfalls : ∀ {n todo s}, t.Midway n todo s → t.Falls s) {s : State}
    {fault : Lattice.Fault Fact} (h : t.Aborts (.lattice fault) s) :
    ∃ phi name old, t.Relapses s phi old ∧ t.func.valueName? phi = some name ∧
      fault = .ascent (t.func.name ++ "." ++ name) old Fact.top old := by
  have hsteady := steady_capped wf
  rcases h.stops wf with ⟨n, h⟩ | ⟨hf, -⟩
  swap
  · cases hf
  cases h with
  | @visit n id todo v f s s' hm hv hb =>
    have hr := (hm.coherent wf).todo_reachable hv
    exact ⟨id, hb.relapses wf (hm.steady hsteady hfalls) hv hr⟩
  | @revisit n id rest v f s s' hm hq hv hb =>
    have hr := ((hm.coherent wf).ready_reachable hq hv).1
    have hcapped := hsteady.queues s.edges rest (s.pending.erase id) (hm.steady hsteady hfalls)
    exact ⟨id, hb.relapses wf hcapped hv hr⟩

end Task

/-- A loop in which three φ-nodes hand their facts round. Nothing flows into the last of them when
the loop is entered. -/
def Func.carousel : Func where
  name := "carousel"
  entry := 0
  blocks := [{ id := 0, name := "entry", instrs := [0], succs := [1] },
    { id := 1, name := "loop", phis := [1, 2, 3], instrs := [4], preds := [0, 1], succs := [1] }]
  values := [{ id := 0, block := 0, op := .jmp, targets := [1] },
    { id := 1, block := 1, op := .phi, edges := [⟨0, .literal (.ofInt 1)⟩, ⟨1, .value 2⟩],
      uses := [⟨3, 1⟩] },
    { id := 2, block := 1, op := .phi, edges := [⟨0, .literal (.ofInt 1)⟩, ⟨1, .value 3⟩],
      uses := [⟨1, 1⟩] },
    { id := 3, block := 1, op := .phi, edges := [⟨1, .value 1⟩], uses := [⟨2, 1⟩] },
    { id := 4, block := 1, op := .jmp, targets := [1] }]

theorem Func.carousel_accepted : carousel.Accepted := by
  have hcalls : ofCalls? "carousel" [.block "entry", .block "loop", .setBlock 0, .jmp 1,
      .setBlock 1, .phi [⟨0, .literal (.ofInt 1)⟩, ⟨1, .value 2⟩],
      .phi [⟨0, .literal (.ofInt 1)⟩, ⟨1, .value 3⟩], .phi [⟨1, .value 1⟩], .jmp 1] =
      some carousel := by decide +kernel
  exact Or.inl (built_of_ofCalls? hcalls)

namespace Task

variable {t : Task}

def carousel : Task := ⟨.carousel, {}⟩

/-- In a run that checks its facts every store is a descent. The run fails the check only at a
φ-node that becomes unknown again, which it names, and never on a strict function. -/
theorem ascent_only_of_relapse (hfn : t.func.Accepted) (hcheck : t.options.checkMonotonic = true) :
    (∀ s, t.Occurs s → s.assignment = Event.replay s.journal ∧ Event.Descending s.journal) ∧
    (∀ fault s, t.Aborts (.lattice fault) s →
      ∃ phi name old, t.Relapses s phi old ∧ t.func.valueName? phi = some name ∧
        fault = .ascent (t.func.name ++ "." ++ name) old Fact.top old) ∧
    (t.func.Strict → ∀ fault s, ¬ t.Aborts (.lattice fault) s) := by
  have wf := hfn.wellFormed
  have hfalls : ∀ {n todo s}, t.Midway n todo s → t.Falls s := fun _ => Or.inl hcheck
  refine ⟨fun s h => ?_, fun fault s h => h.relapses wf hfalls, fun hs fault s h => ?_⟩
  · obtain ⟨hfacts, hdesc⟩ := h.recorded wf hfalls
    exact ⟨hfacts, hdesc⟩
  · exact Aborts.not_lattice wf (fun hm => hm.sinks hs wf) h

/-- The second φ-node is an integer when the loop is entered, and unknown when it is entered again.
-/
theorem ascent_only_of_relapse_carousel :
    carousel.func.Accepted ∧ carousel.options.checkMonotonic = true ∧ ¬ carousel.func.Strict ∧
      ∃ phi name old, carousel.Relapses (carousel.analyze 20).state phi old ∧
        carousel.func.valueName? phi = some name ∧
        (carousel.analyze 20).failure =
          some (.lattice (.ascent ("carousel" ++ "." ++ name) old Fact.top old)) := by
  obtain ⟨-, hrelapse, hstrict⟩ := ascent_only_of_relapse (t := carousel) Func.carousel_accepted rfl
  have hfail : (carousel.analyze 20).failure = some (.lattice (.ascent "carousel.v2"
      (Fact.ofType .i32) Fact.top (Fact.ofType .i32))) := by decide +kernel
  have habort := (aborts_of_analyze hfail).resolve_left fun h => by cases h.1
  obtain ⟨phi, name, old, h, hname, heq⟩ := hrelapse _ _ habort
  refine ⟨Func.carousel_accepted, rfl, fun hs => hstrict hs _ _ habort, phi, name, old, h, hname,
    ?_⟩
  rw [hfail, heq]
  rfl

/-- The check fails on an accepted function, whichever item is taken first. -/
theorem carousel_ascends : Func.carousel.Accepted ∧ ∀ order : Order,
    (analyze ⟨.carousel, { order }⟩ 20).failure =
      some (.lattice (.ascent "carousel.v2" (Fact.ofType .i32) Fact.top (Fact.ofType .i32))) := by
  refine ⟨Func.carousel_accepted, fun order => ?_⟩
  cases order with
  | oldest => decide +kernel
  | newest => decide +kernel

end Task

end TypeFlow
