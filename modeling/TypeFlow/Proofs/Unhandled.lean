import TypeFlow.Proofs.Reachability
import TypeFlow.Proofs.Termination

/-! Opcodes without a rule. The main loop visits all edges before it evaluates a value again, so it
gets to every instruction that control gets to, and it fails at the first one that the target
supports and no rule covers. -/

namespace TypeFlow

/-- The opcodes with a result or with targets that are not arithmetic, loads, comparisons or jumps.
-/
def Opcode.unruled : List Opcode := [.arg, .call, .divI32, .br, .isType, .phi]

theorem Opcode.rule?_eq_none_iff (op : Opcode) : op.rule? = none ↔ op ∈ unruled := by
  cases op with
  | unknown code => simp [rule?, hasOutput, targetCount, unruled]
  | _ => decide

theorem Target.baseline_supports {target : Target} (h : named "baseline" = .ok target) {op : Opcode}
    (hop : op ∈ Opcode.unruled) : target.supports op = false := by
  have hnamed : named "baseline" = .ok (new "baseline" baselineOps) := by rfl
  obtain rfl : new "baseline" baselineOps = target := Except.ok.inj (hnamed.symm.trans h)
  have hnone : ∀ op ∈ Opcode.unruled, (new "baseline" baselineOps).supports op = false := by
    decide +kernel
  exact hnone op hop

namespace Task

variable {t : Task}

/-- Control gets to the instruction `id`, which the target supports and no rule covers. -/
structure Culprit (t : Task) (id : ValueId) (v : Value) (target : Target) : Prop where
  value : t.func.value? id = some v
  instr : v.isPhi = false
  live : t.func.Live t.options.branchSuccessors v.block
  unruled : v.op ∈ Opcode.unruled
  chosen : t.options.target = some target
  supported : target.supports v.op = true

theorem rejects_iff {v : Value} : t.rejects v = true ↔ v.isPhi = false ∧ v.op ∈ Opcode.unruled ∧
    ∃ target, t.options.target = some target ∧ target.supports v.op = true := by
  simp [rejects, and_assoc, Option.any_eq_true, Opcode.rule?_eq_none_iff]

theorem Culprit.rejects {id : ValueId} {v : Value} {target : Target} (h : t.Culprit id v target) :
    t.rejects v = true :=
  rejects_iff.mpr ⟨h.instr, h.unruled, target, h.chosen, h.supported⟩

theorem Breaks.culprit (wf : t.func.WellFormed) {id : ValueId} {v : Value} {s s' : State}
    {function value : Text} {op : Opcode} {name : Text}
    (hb : t.Breaks v s (.unhandled function value op name) s') (hv : t.func.value? id = some v)
    (hlive : t.func.Live t.options.branchSuccessors v.block) :
    function = t.func.name ∧ ∃ target, t.Culprit id v target ∧
      t.func.valueName? id = some value ∧ v.op = op ∧ target.name = name := by
  cases hb with
  | @unhandled _ target hr htarget hname =>
    obtain ⟨hp, hrule, target', htarget', hsupports⟩ := rejects_iff.mp hr
    obtain rfl : target = target' := Option.some.inj (htarget.symm.trans htarget')
    rw [wf.value_id hv] at hname
    exact ⟨rfl, target, ⟨hv, hp, hlive, hrule, htarget, hsupports⟩, hname, rfl, rfl⟩

theorem Aborts.culprit (wf : t.func.WellFormed) {s : State} {function value : Text} {op : Opcode}
    {name : Text} (h : t.Aborts (.unhandled function value op name) s) :
    function = t.func.name ∧ ∃ id v target, t.Culprit id v target ∧
      t.func.valueName? id = some value ∧ v.op = op ∧ target.name = name := by
  rcases h.stops wf with ⟨n, h⟩ | ⟨hf, -⟩
  swap
  · cases hf
  cases h with
  | @visit n id todo v f s s' hm hv hb =>
    have hlive := (hm.controlled wf).live ((hm.coherent wf).todo_reachable hv)
    obtain ⟨hname, target, hculprit⟩ := hb.culprit wf hv hlive
    exact ⟨hname, id, v, target, hculprit⟩
  | @revisit n id rest v f s s' hm hq hv hb =>
    have hlive := (hm.controlled wf).live ((hm.coherent wf).ready_reachable hq hv).1
    obtain ⟨hname, target, hculprit⟩ := hb.culprit wf hv hlive
    exact ⟨hname, id, v, target, hculprit⟩

theorem culprit_of_analyze (wf : t.func.WellFormed) {limit : Nat} {function value : Text}
    {op : Opcode} {name : Text}
    (h : (t.analyze limit).failure = some (.unhandled function value op name)) :
    function = t.func.name ∧ ∃ id v target, t.Culprit id v target ∧
      t.func.valueName? id = some value ∧ v.op = op ∧ target.name = name := by
  rcases aborts_of_analyze h with ⟨hunsettled, -⟩ | habort
  · cases hunsettled
  · exact habort.culprit wf

/-- What is left behind in a reachable block was evaluated without a failure. -/
theorem Midway.rejects_eq (wf : t.func.WellFormed) {n : Nat} {todo : List ValueId} {s : State}
    (h : t.Midway n todo s) {id : ValueId} {v : Value} (hv : t.func.value? id = some v)
    (hr : s.isReachable v.block = true) (htodo : id ∉ todo) : t.rejects v = false := by
  refine h.since_evaluated wf (P := fun _ => t.rejects v = false) hv (fun _ _ _ hrej => hrej)
    (fun _ hrej => hrej) ?_ hr htodo
  rintro x w s s' hw he (rfl | hrej)
  · obtain rfl : w = v := Option.some.inj (hw.symm.trans hv)
    exact he.rejects_eq
  · exact hrej

/-- As long as a culprit is not evaluated, some edge waits. -/
theorem Culprit.edges_ne_nil (wf : t.func.WellFormed) {id : ValueId} {v : Value} {target : Target}
    (h : t.Culprit id v target) {n : Nat} {s : State} (hs : t.Midway n [] s) :
    s.edges.toList ≠ [] := by
  intro hedges
  have hr := ((hs.controlled wf).isReachable_iff hedges).mpr h.live
  have hrej := hs.rejects_eq wf h.value hr List.not_mem_nil
  rw [h.rejects] at hrej
  cases hrej

/-- Taking an edge leaves less to be done with edges. -/
theorem visitEdge_edgeWork (wf : t.func.WellFormed) {n : Nat} {s : State} (hs : t.Midway n [] s)
    {e : Edge} {rest : Queue Edge} (hq : s.edges.Takes e rest) :
    Meets (t.visitEdge e) { s with edges := rest }
      (fun _ s' => t.Midway (n + 1) [] s' ∧ t.edgeWork [] s' + 1 ≤ t.edgeWork [] s)
      (t.Stops (n + 1)) := by
  obtain ⟨b, hb⟩ := (hs.coherent wf).edge_block e (hq.mem_iff.mpr (Or.inl rfl))
  have hpasses : t.Passes
      (fun todo s' => t.Midway (n + 1) todo s' ∧ t.edgeWork todo s' + 1 ≤ t.edgeWork [] s)
      (t.Stops (n + 1)) := by
    refine ⟨fun h => (h.1.coherent wf).facts_length, fun h hv he => ⟨.visit h.1 hv he, ?_⟩,
      fun h hv hbreak => .visit h.1 hv hbreak⟩
    rw [edgeWork_visit _ hv he]
    exact h.2
  refine hpasses.visitEdge wf hb (fun hv => ⟨.skip hs hq hv, (edgeWork_skip hq).le⟩)
    (fun hv => ⟨Midway.enter (s := s) hs hq hv hb, edgeWork_enter wf hq hb⟩)
    (fun hv hw => Stops.enter (s := s) hs hq hv hw)

theorem loop_edges_meets (wf : t.func.WellFormed)
    (hbusy : ∀ {n s}, t.Midway n [] s → s.edges.toList ≠ []) (limit : Nat) {n : Nat} {s : State}
    (hs : t.Midway n [] s) :
    Meets (t.loop limit .edges) s (fun _ _ => False)
      (fun f _ => f = .unsettled → limit ≤ t.edgeWork [] s) := by
  induction limit generalizing n s with
  | zero => exact fun _ => Nat.zero_le _
  | succ limit ih =>
    have hne : ¬ s.edges.isEmpty = true := fun he => hbusy hs (s.edges.isEmpty_iff.mp he)
    simp only [loop, step, meets_bind, meets_get]
    rw [if_neg hne]
    simp only [popEdge, meets_bind, meets_get]
    split
    · next hp => exact absurd (Queue.isEmpty_of_pop? hp) hne
    next e rest hp =>
    simp only [meets_bind, meets_modify, meets_pure]
    refine (visitEdge_edgeWork wf hs (Queue.pop?_takes hp)).mono ?_ ?_
    · rintro _ s' ⟨hs', hwork⟩
      refine (ih hs').mono (fun _ _ h => h) fun f _ hle hf => ?_
      have := hle hf
      omega
    · rintro f s' hstops rfl
      cases hstops.risks

theorem Culprit.analyze_aborts (wf : t.func.WellFormed) {id : ValueId} {v : Value}
    {target : Target} (h : t.Culprit id v target) {limit : Nat} (hlimit : t.workLimit < limit) :
    ∃ f, (t.analyze limit).failure = some f ∧ t.Aborts f (t.analyze limit).state := by
  have hrun : Meets (t.run limit) (.initial t.func) (fun _ _ => False)
      (fun f _ => f ≠ .unsettled) := by
    rw [run_eq, meets_bind]
    refine .intro (fun _ s hb => ?_) (fun f s hb => (Aborts.begin hb).ne_unsettled wf)
    rw [meets_bind]
    refine (loop_edges_meets wf (h.edges_ne_nil wf) limit (.begin hb)).mono (fun _ _ h => h.elim) ?_
    intro f _ hle hf
    have hwork := work_begin hb
    have := hle hf
    omega
  obtain ⟨hnone, hsome⟩ := analyze_meets hrun
  cases hf : (t.analyze limit).failure with
  | none => exact (hnone hf).elim
  | some f =>
    refine ⟨f, rfl, (aborts_of_analyze hf).resolve_left ?_⟩
    rintro ⟨rfl, -⟩
    exact hsome _ hf rfl

/-- A run fails for want of a rule only at an instruction that control gets to, that the target
supports and that no rule covers, and it names this instruction. If there is such an instruction,
the analysis fails at one, unless the check fails before. With the target `baseline` and with no
target there is none. -/
theorem unhandled_iff_live_unruled (hfn : t.func.Accepted) :
    (∀ limit function value op name,
      (t.analyze limit).failure = some (.unhandled function value op name) →
      function = t.func.name ∧ ∃ id v target, t.Culprit id v target ∧
        t.func.valueName? id = some value ∧ v.op = op ∧ target.name = name) ∧
    (∀ limit, t.workLimit < limit → (∀ event, t.options.watch event = true) →
      (t.options.checkMonotonic = false ∨
        ∀ fault, (t.analyze limit).failure ≠ some (.lattice fault)) →
      ((∃ function value op name,
          (t.analyze limit).failure = some (.unhandled function value op name)) ↔
        ∃ id v target, t.Culprit id v target)) ∧
    ((t.options.target = none ∨ ∃ target, Target.named "baseline" = .ok target ∧
        t.options.target = some target) →
      ∀ limit function value op name,
        (t.analyze limit).failure ≠ some (.unhandled function value op name)) := by
  have wf := hfn.wellFormed
  refine ⟨fun _ _ _ _ _ hf => culprit_of_analyze wf hf,
    fun limit hlimit hwatch hcheck => ⟨?_, ?_⟩, ?_⟩
  · rintro ⟨function, value, op, name, hf⟩
    obtain ⟨-, id, v, target, hculprit, -⟩ := culprit_of_analyze wf hf
    exact ⟨id, v, target, hculprit⟩
  · rintro ⟨id, v, target, hculprit⟩
    obtain ⟨f, hf, h⟩ := hculprit.analyze_aborts wf hlimit
    cases h.risks wf with
    | unhandled => exact ⟨_, _, _, _, hf⟩
    | ascent hon =>
      rcases hcheck with hoff | hnever
      · rw [hoff] at hon
        cases hon
      · exact absurd hf (hnever _)
    | unseen hw =>
      rw [hwatch] at hw
      cases hw
  · intro htarget limit function value op name hf
    obtain ⟨-, id, v, target, hculprit, -⟩ := culprit_of_analyze wf hf
    rcases htarget with hnone | ⟨baseline, hnamed, hchosen⟩
    · cases hnone.symm.trans hculprit.chosen
    · obtain rfl : baseline = target := Option.some.inj (hchosen.symm.trans hculprit.chosen)
      have hsupports := Target.baseline_supports hnamed hculprit.unruled
      rw [hculprit.supported] at hsupports
      cases hsupports

/-- On a target with every opcode the analysis fails at the branch that closes the loop, although
facts are checked. -/
theorem unhandled_iff_live_unruled_counting :
    let t : Task := ⟨.counting, { target := some (.new "full" Target.allOps) }⟩
    t.func.Accepted ∧ t.workLimit < 100 ∧
      (t.analyze 100).failure = some (.unhandled "counting" "v4" .br "full") ∧
      ∃ id v target, t.Culprit id v target := by
  intro t
  have hlimit : t.workLimit < 100 := by decide +kernel
  have hf : (t.analyze 100).failure = some (.unhandled "counting" "v4" .br "full") := by
    decide +kernel
  have hnever : ∀ fault, (t.analyze 100).failure ≠ some (.lattice fault) := by
    intro fault hfault
    cases hf.symm.trans hfault
  obtain ⟨-, hiff, -⟩ := unhandled_iff_live_unruled (t := t) Func.counting_accepted
  have hculprit := (hiff 100 hlimit (fun _ => rfl) (Or.inr hnever)).mp ⟨_, _, _, _, hf⟩
  exact ⟨Func.counting_accepted, hlimit, hf, hculprit⟩

end Task

end TypeFlow
