import Mathlib.Data.Prod.Lex
import Mathlib.Order.Bounds.Basic
import TypeFlow.Proofs.Strict
import TypeFlow.Proofs.Termination

/-! The outcome on a strict function. Whatever the order in which items are taken, the facts are the
greatest solution of the equations that control sets up, so all runs that end agree. -/

namespace TypeFlow

namespace Edge

theorem le_iff {a b : Edge} : a.le b = true ↔ toLex (a.src, a.dst) ≤ toLex (b.src, b.dst) := by
  rw [Prod.Lex.toLex_le_toLex]
  unfold le
  split_ifs with h
  · simp [h]
  · simp [h, lt_iff_le_and_ne]

theorem le_trans {a b c : Edge} (hab : a.le b = true) (hbc : b.le c = true) : a.le c = true :=
  le_iff.mpr ((le_iff.mp hab).trans (le_iff.mp hbc))

theorem le_total (a b : Edge) : (a.le b || b.le a) = true := by
  rw [Bool.or_eq_true, le_iff, le_iff]
  exact Std.Total.total _ _

theorem le_antisymm {a b : Edge} (hab : a.le b = true) (hba : b.le a = true) : a = b := by
  have heq := toLex_inj.mp (PartialOrder.le_antisymm _ _ (le_iff.mp hab) (le_iff.mp hba))
  cases a
  cases b
  cases heq
  rfl

end Edge

namespace Solution

variable {s s' : Solution}

theorem visitedEdges_eq (hs : s.visited.Nodup) (hs' : s'.visited.Nodup)
    (h : ∀ e, s.isVisited e = s'.isVisited e) : s.visitedEdges = s'.visitedEdges := by
  have hmem : ∀ e, e ∈ s.visited ↔ e ∈ s'.visited := fun e => by
    simpa [isVisited] using congrArg (· = true) (h e)
  have hperm := (List.perm_ext_iff_of_nodup hs hs').mpr hmem
  have hsorted : ∀ l : List Edge, (l.mergeSort Edge.le).Pairwise (fun a b => a.le b = true) :=
    List.pairwise_mergeSort (fun _ _ _ => Edge.le_trans) Edge.le_total
  refine List.Perm.eq_of_pairwise (fun _ _ _ _ => Edge.le_antisymm) (hsorted _) (hsorted _) ?_
  exact (List.mergeSort_perm _ _).trans (hperm.trans (List.mergeSort_perm _ _).symm)

theorem facts_eq_of_assignment (hlen : s.facts.length = s'.facts.length)
    (h : s.assignment = s'.assignment) : s.facts = s'.facts := by
  have hget : ∀ (r : Solution) (k : Nat) (hk : k < r.facts.length),
      r.assignment (k : Int) = r.facts[k] := fun r k hk =>
    assignment_eq_of_fact? (by rw [fact?, lookup_natCast, List.getElem?_eq_getElem hk])
  refine List.ext_getElem hlen fun k hk hk' => ?_
  rw [← hget s k hk, ← hget s' k hk', h]

/-- The meet of what flows into a φ-node along visited edges. -/
def meetOver (s : Solution) (V : ValueId → Fact) (phi : Value) : Fact :=
  ((phi.edges.filter fun i => s.isVisited ⟨i.pred, phi.block⟩).map fun i => i.arg.fact V).foldl
    Fact.meet Fact.top

theorem le_foldl_meet {a c : Fact} {l : List Fact} :
    a ≤ l.foldl Fact.meet c ↔ a ≤ c ∧ ∀ x ∈ l, a ≤ x := by
  induction l generalizing c with
  | nil => simp
  | cons x l ih => rw [List.foldl_cons, ih, Fact.le_meet_iff, List.forall_mem_cons, and_assoc]

theorem le_meetOver_iff {V : ValueId → Fact} {phi : Value} {a : Fact} :
    a ≤ s.meetOver V phi ↔ ∀ i ∈ phi.edges, s.isVisited ⟨i.pred, phi.block⟩ = true →
      a ≤ i.arg.fact V := by
  simp only [meetOver, le_foldl_meet, Fact.le_top, true_and, List.forall_mem_map,
    List.mem_filter, and_imp]

end Solution

/-- An assignment of facts lies below what it makes flow along the control that is followed. -/
structure Func.Supports (fn : Func) (branch : Bool) (V : ValueId → Fact) : Prop where
  instr : ∀ {id v}, fn.value? id = some v → fn.Live branch v.block → v.isPhi = false →
    V id ≤ v.op.fact
  phi : ∀ {id v i}, fn.value? id = some v → v.isPhi = true → i ∈ v.edges →
    fn.Live branch i.pred → fn.Follows branch i.pred v.block → V id ≤ i.arg.fact V

namespace Task

variable {t : Task}

/-- An assignment of facts solves the equations of a state: a meet for a φ-node, the fact of the
opcode for an instruction, and nothing known outside the reachable blocks. -/
structure Solves (t : Task) (s : State) (V : ValueId → Fact) : Prop where
  outside : ∀ {id}, (∀ v, t.func.value? id = some v → s.isReachable v.block = false) →
    V id = Fact.top
  instr : ∀ {id v}, t.func.value? id = some v → s.isReachable v.block = true → v.isPhi = false →
    ∃ s', t.transfer v s = .ok (V id) s'
  phi : ∀ {id v}, t.func.value? id = some v → s.isReachable v.block = true → v.isPhi = true →
    V id = s.meetOver V v

theorem Midway.le_valueFact (hs : t.func.Strict) (wf : t.func.WellFormed) {n : Nat}
    {todo : List ValueId} {s : State} (h : t.Midway n todo s) {V : ValueId → Fact}
    (hV : t.func.Supports t.options.branchSuccessors V) (hle : ∀ id, V id ≤ s.assignment id)
    {id : ValueId} {v : Value} {f : Fact} (hv : t.func.value? id = some v)
    (hr : s.isReachable v.block = true) (hf : s.valueFact? v = some f) : V id ≤ f := by
  have hc := h.controlled wf
  cases hp : v.isPhi
  · rw [Solution.valueFact?_of_not_isPhi hp] at hf
    rw [← Option.some.inj hf]
    exact hV.instr hv (hc.live hr) hp
  · rw [Solution.valueFact?, if_pos hp] at hf
    refine (Solution.le_phiFact?_iff ((h.known hs wf).feeds hv hp) hf).mpr fun i hi hvis => ?_
    rcases hc.source (Or.inl hvis) with hentry | ⟨hsrc, hfollows⟩
    · exact absurd (congrArg Edge.dst hentry) (hs.block_ne_entry wf hv hp)
    · exact (hV.phi hv hp hi (hc.live hsrc) hfollows).trans (i.arg.fact_mono hle)

theorem Evaluates.above (wf : t.func.WellFormed) {id : ValueId} {v : Value} {s s' : State}
    (he : t.Evaluates v s s') (hv : t.func.value? id = some v) {V : ValueId → Fact}
    (hle : ∀ id, V id ≤ s.assignment id) (hnew : ∀ f, s.valueFact? v = some f → V id ≤ f)
    (x : ValueId) : V x ≤ s'.assignment x := by
  rcases he.assignment_cases x with ⟨hx, hf⟩ | ⟨-, heq⟩
  · obtain rfl : x = id := hx.trans (wf.value_id hv)
    exact hnew _ hf
  · rw [heq]
    exact hle x

/-- The facts of a run on a strict function never sink below a supported assignment. -/
theorem Midway.above (hs : t.func.Strict) (wf : t.func.WellFormed) {n : Nat}
    {todo : List ValueId} {s : State} (h : t.Midway n todo s) {V : ValueId → Fact}
    (hV : t.func.Supports t.options.branchSuccessors V) (id : ValueId) :
    V id ≤ s.assignment id := by
  induction h generalizing id with
  | begin h =>
    obtain rfl := begin_eq h
    have htop := congrFun (State.recorded_initial t.func).facts_eq id
    change V id ≤ (State.initial t.func).assignment id
    rw [htop]
    exact Fact.le_top _
  | skip hm hq hv ih => exact ih id
  | enter hm hq hv hb ih => exact ih id
  | @visit n x todo v s s' hm hv he ih =>
    have hr := (hm.coherent wf).todo_reachable hv
    exact he.above wf hv ih (fun f hf => hm.le_valueFact hs wf hV ih hv hr hf) id
  | @revisit n x rest v s s' hm hq hv he ih =>
    have hr := ((hm.coherent wf).ready_reachable hq hv).1
    exact he.above wf hv ih (fun f hf => hm.le_valueFact hs wf hV ih hv hr hf) id

theorem Returns.above (hs : t.func.Strict) (wf : t.func.WellFormed) {s : State}
    (h : t.Returns s) {V : ValueId → Fact}
    (hV : t.func.Supports t.options.branchSuccessors V) (id : ValueId) :
    V id ≤ s.assignment id := by
  obtain ⟨n, last, hlast, -, -, rfl⟩ := h.midway wf
  exact hlast.above hs wf hV id

theorem Returns.known (hs : t.func.Strict) (wf : t.func.WellFormed) {s : State}
    (h : t.Returns s) : t.Known [] s := by
  obtain ⟨n, last, hlast, -, -, rfl⟩ := h.midway wf
  obtain ⟨h₁, h₂, h₃⟩ := hlast.known hs wf
  exact ⟨h₁, h₂, h₃⟩

theorem Returns.facts_length (wf : t.func.WellFormed) {s : State} (h : t.Returns s) :
    s.facts.length = t.func.values.length := by
  obtain ⟨n, last, hlast, -, -, rfl⟩ := h.midway wf
  exact (hlast.coherent wf).facts_length

theorem Returns.fact?_eq_none (wf : t.func.WellFormed) {s : State} (h : t.Returns s)
    {id : ValueId} (hv : t.func.value? id = none) : s.fact? id = none := by
  cases hf : s.fact? id with
  | none => rfl
  | some f =>
    obtain ⟨hpos, hlt⟩ := lookup_bounds hf
    obtain ⟨v, hv'⟩ := exists_lookup hpos (h.facts_length wf ▸ hlt)
    cases hv.symm.trans hv'

theorem Solves.supports (wf : t.func.WellFormed) {s : State} (h : t.Returns s)
    {V : ValueId → Fact} (hV : t.Solves s V) :
    t.func.Supports t.options.branchSuccessors V := by
  constructor
  · intro id v hv hlive hp
    obtain ⟨s', htransfer⟩ := hV.instr hv ((h.isReachable_iff wf).mpr hlive) hp
    exact le_of_eq (fact_of_transfer wf hv hp htransfer)
  · intro id v i hv hp hi hlive hfollows
    have hsrc := (h.isReachable_iff wf).mpr hlive
    have hr := (h.isReachable_iff wf).mpr (hlive.tail hfollows)
    have heq := hV.phi hv hr hp
    exact Solution.le_meetOver_iff.mp (le_of_eq heq) i hi
      ((h.isVisited_iff wf).mpr (Or.inr ⟨hsrc, hfollows⟩))

theorem Returns.solves (hs : t.func.Strict) (wf : t.func.WellFormed) {s : State}
    (h : t.Returns s) : t.Solves s s.assignment := by
  constructor
  · intro id hout
    cases hv : t.func.value? id with
    | none => simp [Solution.assignment, h.fact?_eq_none wf hv]
    | some v => exact Solution.assignment_eq_of_fact? ((h.settled wf).1.untouched hv (hout v hv))
  · intro id v hv hr hp
    obtain ⟨hfact, hrej⟩ := h.fact?_eq wf hv hr
    rw [Solution.valueFact?_of_not_isPhi hp] at hfact
    rw [Solution.assignment_eq_of_fact? hfact]
    exact ⟨_, transfer_eq wf hv hp hrej s⟩
  · intro id v hv hr hp
    obtain ⟨f, hf⟩ := h.exists_valueFact wf hv
    rw [Solution.assignment_eq_of_fact? ((h.fact?_eq wf hv hr).1.trans hf)]
    rw [Solution.valueFact?, if_pos hp] at hf
    refine eq_of_forall_le_iff fun a => ?_
    rw [Solution.le_phiFact?_iff ((h.known hs wf).feeds hv hp) hf, Solution.le_meetOver_iff]

/-- All runs on a strict function that end agree, even if their targets differ or some of them are
checked. -/
theorem Returns.outcome_eq (hs : t.func.Strict) (wf : t.func.WellFormed) {t' : Task}
    (hfunc : t'.func = t.func)
    (hbranch : t'.options.branchSuccessors = t.options.branchSuccessors) {s s' : State}
    (h : t.Returns s) (h' : t'.Returns s') :
    s'.visitedEdges = s.visitedEdges ∧ s'.reachable = s.reachable ∧ s'.facts = s.facts := by
  have wf' : t'.func.WellFormed := hfunc ▸ wf
  have hs' : t'.func.Strict := hfunc ▸ hs
  have hreach : ∀ b, s'.isReachable b = s.isReachable b := fun b => by
    rw [Bool.eq_iff_iff, h'.isReachable_iff wf', h.isReachable_iff wf, hfunc, hbranch]
  have hvisit : ∀ e, s'.isVisited e = s.isVisited e := fun e => by
    rw [Bool.eq_iff_iff, h'.isVisited_iff wf', h.isVisited_iff wf, hreach, entryEdge, entryEdge,
      Task.Follows, Task.Follows, hfunc, hbranch]
  have hsupports := (h.solves hs wf).supports wf h
  have hsupports' := (h'.solves hs' wf').supports wf' h'
  have hle : ∀ id, s.assignment id ≤ s'.assignment id :=
    h'.above hs' wf' (by rwa [hfunc, hbranch])
  have hle' : ∀ id, s'.assignment id ≤ s.assignment id :=
    h.above hs wf (by rwa [hfunc, hbranch] at hsupports')
  have hlen : s'.facts.length = s.facts.length := by
    rw [h'.facts_length wf', h.facts_length wf, hfunc]
  exact ⟨Solution.visitedEdges_eq (h'.controlled wf').1.nodup (h.controlled wf).1.nodup hvisit,
    IntSet.ext_of_contains hreach,
    Solution.facts_eq_of_assignment hlen (funext fun id => le_antisymm (hle' id) (hle id))⟩

theorem counting_strict : counting.func.Strict := by
  have wf := Func.counting_accepted.wellFormed
  have hentry : ∀ b ∈ Func.counting.block? Func.counting.entry, b.phis = [] := by decide +kernel
  have hcovers : ∀ b ∈ Func.counting.blocks, ∀ id ∈ b.phis, ∀ v ∈ Func.counting.value? id,
      ∀ p ∈ b.preds, ∃ e ∈ v.edges, e.pred = p := by decide +kernel
  have hpred : ∀ v ∈ Func.counting.values, ∀ e ∈ v.edges, ∀ w ∈ Func.counting.values,
      e.arg = .value w.id → w.block = e.pred := by decide +kernel
  refine ⟨hentry _, fun hb hid hv hp => hcovers _ (mem_of_lookup hb) _ hid _ hv _ hp, ?_⟩
  intro id v e d w hv _ he harg hw path hpath
  rw [hpred v (mem_of_lookup hv) e he w (mem_of_lookup hw) (by rw [wf.value_id hw, harg])]
  exact hpath.mem_self

/-- On a strict function every run ends, whatever the order in which items are taken, and no fact
rises in it. Unless a run meets an opcode without a rule, it ends with facts that are the greatest
solution, with something known about every value of a reachable block, and all runs agree. -/
theorem strict_order_independence (hfn : t.func.Accepted) (hs : t.func.Strict) :
    (∀ n s, t.Reaches n s → n ≤ t.workLimit) ∧
    (∀ limit, 2 * t.workLimit + 2 ≤ limit → (t.analyze limit).failure ≠ some .unsettled) ∧
    (∀ s, t.Occurs s → s.assignment = Event.replay s.journal ∧ Event.Descending s.journal) ∧
    (∀ f s, t.Aborts f s →
      (∃ function value op target, f = .unhandled function value op target) ∨
        f = .unobserved ∧ ∃ event, t.options.watch event = false) ∧
    ∀ s, t.Returns s →
      IsGreatest {V | t.Solves s V} s.assignment ∧
      (∀ id v, t.func.value? id = some v → s.isReachable v.block = true →
        s.assignment id ≠ Fact.top) ∧
      ∀ (t' : Task) (s' : State), t'.func = t.func →
        t'.options.branchSuccessors = t.options.branchSuccessors → t'.Returns s' →
        s'.visitedEdges = s.visitedEdges ∧ s'.reachable = s.reachable ∧ s'.facts = s.facts := by
  have wf := hfn.wellFormed
  have hsinks : ∀ {n todo s}, t.Midway n todo s → t.Sinks s := fun h => h.sinks hs wf
  have hfalls : ∀ {n todo s}, t.Midway n todo s → t.Falls s := fun h => Or.inr (hsinks h)
  refine ⟨fun n s h => h.le_workLimit wf hfalls, fun limit h => analyze_ne_unsettled wf hfalls h,
    fun s h => ?_, fun f s h => h.failure_cases wf hsinks,
    fun s h => ⟨⟨h.solves hs wf, ?_⟩, ?_, ?_⟩⟩
  · obtain ⟨hfacts, hdesc⟩ := h.recorded wf hfalls
    exact ⟨hfacts, hdesc⟩
  · exact fun V hV id => h.above hs wf (hV.supports wf h) id
  · exact fun id v hv hr => (h.known hs wf).ne_top hv hr List.not_mem_nil
  · exact fun t' s' hfunc hbranch h' => h.outcome_eq hs wf hfunc hbranch h'

/-- The loop is analysed in at most fifteen turns, and to the best facts there are. -/
theorem strict_order_independence_counting :
    counting.func.Accepted ∧ counting.func.Strict ∧
      (∀ n s, counting.Reaches n s → n ≤ 15) ∧ counting.Returns (counting.analyze 40).state ∧
      IsGreatest {V | counting.Solves (counting.analyze 40).state V}
        (counting.analyze 40).state.assignment := by
  obtain ⟨hends, -, -, -, hreturns⟩ :=
    strict_order_independence Func.counting_accepted counting_strict
  have hlimit : counting.workLimit ≤ 15 := by decide +kernel
  exact ⟨Func.counting_accepted, counting_strict, fun n s h => (hends n s h).trans hlimit,
    counting_returns, (hreturns _ counting_returns).1⟩

end Task

end TypeFlow
