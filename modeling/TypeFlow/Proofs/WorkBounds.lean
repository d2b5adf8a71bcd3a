import Mathlib.Algebra.BigOperators.Ring.List
import Mathlib.Data.List.Nodup
import TypeFlow.Proofs.Reachability
import TypeFlow.Proofs.Termination

/-! How much a run does while no fact rises. Every counter of a run is bounded by the size of the
function: a fact descends at most twice, an edge is visited once, and an evaluation is paid for by
the visit of an edge or by the descent of an operand. -/

namespace TypeFlow

namespace Event

/-- How often a journal stores a fact for a value. -/
def stores (id : ValueId) : List Event → Nat
  | [] => 0
  | .update x _ _ _ :: earlier => if id = x then stores id earlier + 1 else stores id earlier
  | _ :: earlier => stores id earlier

end Event

def Stats.evals (stats : Stats) : Nat := stats.instrEvals + stats.phiEvals

@[simp] theorem Stats.evals_counted (stats : Stats) (v : Value) :
    (stats.counted v).evals = stats.evals + 1 := by
  unfold counted evals
  split <;> simp only <;> omega

@[simp] theorem Stats.edgesVisited_counted (stats : Stats) (v : Value) :
    (stats.counted v).edgesVisited = stats.edgesVisited := by
  unfold counted
  split <;> rfl

@[simp] theorem Stats.blocksReached_counted (stats : Stats) (v : Value) :
    (stats.counted v).blocksReached = stats.blocksReached := by
  unfold counted
  split <;> rfl

@[simp] theorem Stats.phiEvals_counted (stats : Stats) (v : Value) :
    (stats.counted v).phiEvals = stats.phiEvals + if v.isPhi then 1 else 0 := by
  unfold counted
  split <;> rfl

@[simp] theorem Stats.updates_counted (stats : Stats) (v : Value) :
    (stats.counted v).updates = stats.updates := by
  unfold counted
  split <;> rfl

namespace Task

variable {t : Task}

/-- Stores are paid for by the depth of the facts they lead to. -/
structure Tallied (t : Task) (s : State) : Prop where
  stores_le : ∀ id, Event.stores id s.journal ≤ (s.assignment id).depth
  updates_le : s.stats.updates ≤ (t.func.values.map fun v => (s.assignment v.id).depth).sum

namespace Tallied

theorem evaluated {s : State} (h : t.Tallied s) (v : Value) : t.Tallied (s.evaluated v) := by
  refine ⟨h.stores_le, ?_⟩
  have hupdates := h.updates_le
  rw [← s.stats.updates_counted v] at hupdates
  exact hupdates

theorem stored {s : State} (h : t.Tallied s) {id : ValueId} {v : Value} {name : Text}
    {old new : Fact} (hv : t.func.value? id = some v) (hold : s.fact? v.id = some old)
    (hle : new ≤ old) (hne : old ≠ new) : t.Tallied (s.stored v.id name old new) := by
  have hassign : ∀ x, (s.stored v.id name old new).assignment x =
      if x = v.id then new else s.assignment x := State.assignment_stored hold
  have hdepth : (s.assignment v.id).depth < new.depth := by
    rw [Solution.assignment_eq_of_fact? hold]
    exact Fact.depth_lt_of_descent hle hne
  constructor
  · intro x
    have hx := h.stores_le x
    rw [hassign]
    change (if x = v.id then Event.stores x s.journal + 1 else Event.stores x s.journal) ≤ _
    split_ifs with heq
    · rw [heq] at hx ⊢
      omega
    · exact hx
  · have hsum : (t.func.values.map fun w => (s.assignment w.id).depth).sum + 1 ≤
        (t.func.values.map fun w => ((s.stored v.id name old new).assignment w.id).depth).sum := by
      refine sum_map_add_le (mem_of_lookup hv) ?_ fun w _ => ?_
      · rw [hassign, if_pos rfl]
        exact hdepth
      · rw [hassign]
        split_ifs with heq
        · rw [heq]
          exact hdepth.le
        · exact le_rfl
    have hupdates := h.updates_le
    change s.stats.updates + 1 ≤ _
    omega

theorem evaluates (wf : t.func.WellFormed) {s s' : State} (h : t.Tallied s) {id : ValueId}
    {v : Value} (hv : t.func.value? id = some v) (hfalls : t.Falls s) (he : t.Evaluates v s s') :
    t.Tallied s' := by
  cases he with
  | same hr hf hold => exact h.evaluated v
  | @change old new name hr hf hold hne hle =>
    obtain ⟨ready, pending, heq⟩ :=
      State.foldl_scheduled v.uses ((s.evaluated v).stored v.id name old new)
    have hstored : t.Tallied ((s.evaluated v).stored v.id name old new) :=
      (h.evaluated v).stored hv hold (hfalls.le wf hv hf hold hle) hne
    rw [heq]
    exact ⟨hstored.stores_le, hstored.updates_le⟩

theorem breaks (wf : t.func.WellFormed) {s s' : State} {f : Failure} (h : t.Tallied s)
    {id : ValueId} {v : Value} (hv : t.func.value? id = some v) (hfalls : t.Falls s)
    (hb : t.Breaks v s f s') : t.Tallied s' := by
  cases hb with
  | evalUnseen hw => exact ⟨h.stores_le, h.updates_le⟩
  | unhandled hr htarget hname => exact h.evaluated v
  | ascent hf hold hcheck hnle => exact h.evaluated v
  | updateUnseen hf hold hne hle hw =>
    exact (h.evaluated v).stored hv hold (hfalls.le wf hv hf hold hle) hne

end Tallied

theorem steady_tallied (wf : t.func.WellFormed) : t.Steady t.Tallied where
  begin hb := by
    obtain rfl := begin_eq hb
    exact ⟨fun _ => Nat.zero_le _, Nat.zero_le _⟩
  queues _ _ _ h := ⟨h.stores_le, h.updates_le⟩
  entered _ h := ⟨h.stores_le, h.updates_le⟩
  evaluates hv hfalls he h := h.evaluates wf hv hfalls he

/-- The evaluations that the visited edges and the descents of operands pay for. -/
def evalCredit (t : Task) (s : Solution) : Nat :=
  (t.func.blocks.map fun b => (if s.isReachable b.id then b.instrs.length else 0) +
    b.phis.length * s.visited.countP (·.dst == b.id)).sum +
  (t.func.values.map fun v => 2 * v.uses.length).sum

theorem evalCredit_entered (wf : t.func.WellFormed) {s : State} {e : Edge} {b : Block}
    (hb : t.func.block? e.dst = some b) :
    t.evalCredit s.toSolution + (if s.isReachable e.dst then b.phis else b.members).length ≤
      t.evalCredit (s.entered e).toSolution := by
  have hid := wf.block_id hb
  have hreach := State.isReachable_entered s e
  have hcount : ∀ c : Block, (s.entered e).visited.countP (·.dst == c.id) =
      s.visited.countP (·.dst == c.id) + if e.dst == c.id then 1 else 0 :=
    fun c => List.countP_cons
  have hsum : ∀ {f g : Block → Nat} {c rest : Nat}, (∀ x ∈ t.func.blocks, f x ≤ g x) →
      f b + c ≤ g b →
      (t.func.blocks.map f).sum + rest + c ≤ (t.func.blocks.map g).sum + rest := by
    intro f g c rest hle hb'
    have := sum_map_add_le (mem_of_lookup hb) hb' hle
    omega
  refine hsum (fun c _ => ?_) ?_
  · refine Nat.add_le_add ?_ (Nat.mul_le_mul_left _ ?_)
    · split_ifs with hold hnew
      · exact le_rfl
      · exact absurd ((hreach c.id).mpr (Or.inr hold)) hnew
      · exact Nat.zero_le _
      · exact le_rfl
    · rw [hcount]
      exact Nat.le_add_right _ _
  · have hnew : (s.entered e).isReachable b.id = true := (hreach b.id).mpr (Or.inl hid)
    have hdst : (e.dst == b.id) = true := by simp [hid]
    rw [hcount, if_pos hdst, if_pos hnew, Nat.mul_add, hid]
    split_ifs with hold
    · omega
    · simp only [Block.members, List.length_append]
      omega

/-- Evaluations are counted, and those to come are paid for. -/
structure Metered (t : Task) (todo : List ValueId) (s : State) : Prop where
  edges : s.stats.edgesVisited = s.visited.length
  evals : s.stats.evals + todo.length + t.valueWork s ≤ t.evalCredit s.toSolution

theorem Evaluates.stats {v : Value} {s s' : State} (he : t.Evaluates v s s') :
    s'.stats.edgesVisited = s.stats.edgesVisited ∧ s'.stats.evals = s.stats.evals + 1 := by
  cases he with
  | same hr hf hold =>
    exact ⟨s.stats.edgesVisited_counted v, s.stats.evals_counted v⟩
  | @change old new name hr hf hold hne hle =>
    obtain ⟨ready, pending, heq⟩ :=
      State.foldl_scheduled v.uses ((s.evaluated v).stored v.id name old new)
    rw [heq]
    exact ⟨s.stats.edgesVisited_counted v, s.stats.evals_counted v⟩

theorem Breaks.stats {v : Value} {f : Failure} {s s' : State} (hb : t.Breaks v s f s') :
    s'.stats.edgesVisited = s.stats.edgesVisited ∧ s'.stats.evals ≤ s.stats.evals + 1 := by
  have hcounted := And.intro (s.stats.edgesVisited_counted v) (s.stats.evals_counted v).le
  cases hb with
  | evalUnseen hw => exact ⟨rfl, Nat.le_succ _⟩
  | unhandled hr htarget hname => exact hcounted
  | ascent hf hold hcheck hnle => exact hcounted
  | updateUnseen hf hold hne hle hw => exact hcounted

theorem Metered.evaluates (wf : t.func.WellFormed) {s s' : State} {todo : List ValueId}
    {id : ValueId} {v : Value} (h : t.Metered (id :: todo) s) (hv : t.func.value? id = some v)
    (hfalls : t.Falls s) (he : t.Evaluates v s s') : t.Metered todo s' := by
  obtain ⟨hedges, hevals⟩ := he.stats
  have hwork := he.valueWork_le wf hv hfalls
  have hcredit : t.evalCredit s'.toSolution = t.evalCredit s.toSolution := by
    simp only [evalCredit, he.effect.visited, he.effect.isReachable_eq]
  have hpaid := h.evals
  refine ⟨?_, ?_⟩
  · rw [hedges, he.effect.visited]
    exact h.edges
  · rw [hcredit, hevals]
    rw [List.length_cons] at hpaid
    omega

theorem Metered.taken {s : State} (h : t.Metered [] s) {id : ValueId} {rest : Queue ValueId}
    (hq : s.ready.Takes id rest) : t.Metered [id] (s.taken id rest) := by
  have hlen := hq.length
  have hpaid := h.evals
  refine ⟨h.edges, ?_⟩
  change s.stats.evals + 1 + (rest.length + t.slack s.assignment) ≤ t.evalCredit s.toSolution
  simp only [valueWork, List.length_nil] at hpaid
  omega

theorem Midway.metered (wf : t.func.WellFormed)
    (hfalls : ∀ {n todo s}, t.Midway n todo s → t.Falls s) {n : Nat} {todo : List ValueId}
    {s : State} (h : t.Midway n todo s) : t.Metered todo s := by
  induction h with
  | begin h =>
    obtain rfl := begin_eq h
    have hslack : t.slack (State.initial t.func).assignment ≤
        (t.func.values.map fun v => 2 * v.uses.length).sum :=
      List.sum_le_sum fun v _ => Nat.mul_le_mul_right _ (Nat.sub_le _ _)
    refine ⟨rfl, ?_⟩
    change 0 + 0 + (0 + t.slack (State.initial t.func).assignment) ≤
      t.evalCredit (State.initial t.func).toSolution
    unfold evalCredit
    omega
  | skip hm hq hv ih => exact ⟨ih.edges, ih.evals⟩
  | @enter n s e rest b hm hq hv hb ih =>
    have hcredit : t.evalCredit s.toSolution +
        (if s.isReachable e.dst then b.phis else b.members).length ≤
        t.evalCredit (({ s with edges := rest } : State).entered e).toSolution :=
      evalCredit_entered wf (s := { s with edges := rest }) hb
    have hpaid := ih.evals
    refine ⟨congrArg (· + 1) ih.edges, ?_⟩
    change s.stats.evals + _ + t.valueWork s ≤ _
    rw [List.length_nil] at hpaid
    omega
  | visit hm hv he ih =>
    obtain ⟨hedges, hevals⟩ := ih.evaluates wf hv (hfalls hm) he
    exact ⟨hedges, hevals⟩
  | revisit hm hq hv he ih =>
    have hf : t.Falls _ := hfalls hm
    exact (ih.taken hq).evaluates wf hv hf he

namespace Controlled

theorem visited_length_le (wf : t.func.WellFormed) {todo : List ValueId} {s : State}
    (h : t.Controlled todo s) :
    s.visited.length ≤ 1 + (t.func.blocks.map fun b => b.succs.length).sum := by
  let edges := t.func.blocks.flatMap fun b => b.succs.map fun c => (⟨b.id, c⟩ : Edge)
  have hsub : s.visited ⊆ t.entryEdge :: edges := by
    intro e he
    rcases h.source (Or.inl (List.contains_iff_mem.mpr he)) with rfl | ⟨-, v, hv, hdst, -⟩
    · exact List.mem_cons_self
    · obtain ⟨b, hb, -⟩ := wf.terminator hv
      have hsucc : e.dst ∈ b.succs := (wf.succs_iff hb).mpr ⟨v, hv, hdst⟩
      refine List.mem_cons_of_mem _ (List.mem_flatMap.mpr ⟨b, mem_of_lookup hb, ?_⟩)
      exact List.mem_map.mpr ⟨e.dst, hsucc, by rw [wf.block_id hb]⟩
  have hlen := (List.subperm_of_subset h.nodup hsub).length_le
  have hedges : edges.length = (t.func.blocks.map fun b => b.succs.length).sum := by
    simp [edges, List.length_flatMap]
  rw [List.length_cons, hedges] at hlen
  omega

theorem entries_le (wf : t.func.WellFormed) {todo : List ValueId} {s : State}
    (h : t.Controlled todo s) {i : BlockId} {b : Block} (hb : t.func.block? i = some b) :
    s.visited.countP (·.dst == i) ≤ b.preds.length + 1 := by
  have hnodup : ((s.visited.filter (·.dst == i)).map (·.src)).Nodup := by
    refine List.Nodup.map_on (fun e he e' he' hsrc => ?_) (h.nodup.filter _)
    have hdst : e.dst = i := by simpa using (List.mem_filter.mp he).2
    have hdst' : e'.dst = i := by simpa using (List.mem_filter.mp he').2
    cases e
    cases e'
    simp_all
  have hsub : (s.visited.filter (·.dst == i)).map (·.src) ⊆ noBlock :: b.preds := by
    intro p hp
    obtain ⟨e, he, rfl⟩ := List.mem_map.mp hp
    obtain ⟨hvisited, hdst⟩ := List.mem_filter.mp he
    have hdst : e.dst = i := by simpa using hdst
    rcases h.source (Or.inl (List.contains_iff_mem.mpr hvisited)) with rfl | ⟨-, v, hv, htarget, -⟩
    · exact List.mem_cons_self
    · exact List.mem_cons_of_mem _ ((wf.preds_iff hb).mpr ⟨v, hv, hdst ▸ htarget⟩)
  have hlen := (List.subperm_of_subset hnodup hsub).length_le
  rw [List.length_map, ← List.countP_eq_length_filter, List.length_cons] at hlen
  exact hlen

end Controlled

theorem evalCredit_le (wf : t.func.WellFormed) {todo : List ValueId} {s : State}
    (h : t.Controlled todo s) : t.evalCredit s.toSolution ≤ t.func.values.length +
      (t.func.blocks.map fun b => b.phis.length * (b.preds.length + 1)).sum +
      2 * (t.func.values.map fun v => v.uses.length).sum := by
  have hblocks : (t.func.blocks.map fun b => (if s.isReachable b.id then b.instrs.length else 0) +
      b.phis.length * s.visited.countP (·.dst == b.id)).sum ≤
      (t.func.blocks.map fun b => b.instrs.length + b.phis.length * (b.preds.length + 1)).sum := by
    refine List.sum_le_sum fun b hm => Nat.add_le_add ?_ (Nat.mul_le_mul_left _ ?_)
    · split_ifs
      · exact le_rfl
      · exact Nat.zero_le _
    · obtain ⟨n, hn⟩ := exists_lookup_of_mem hm
      rw [wf.block_id hn]
      exact h.entries_le wf hn
  have hinstrs : (t.func.blocks.map fun b => b.instrs.length).sum ≤ t.func.values.length := by
    rw [← wf.members_sum]
    refine List.sum_le_sum fun b _ => ?_
    simp [Block.members]
  have huses : (t.func.values.map fun v => 2 * v.uses.length).sum =
      2 * (t.func.values.map fun v => v.uses.length).sum := List.sum_map_mul_left ..
  have hsplit : (t.func.blocks.map fun b => b.instrs.length +
      b.phis.length * (b.preds.length + 1)).sum = (t.func.blocks.map fun b => b.instrs.length).sum +
      (t.func.blocks.map fun b => b.phis.length * (b.preds.length + 1)).sum := List.sum_map_add
  unfold evalCredit
  omega

/-- What was done up to some state is bounded by the size of the function. -/
structure Bounded (t : Task) (s : State) : Prop where
  stores_le : ∀ id, Event.stores id s.journal ≤ 2
  updates_le : s.stats.updates ≤ 2 * t.func.values.length
  edges_le : s.stats.edgesVisited ≤ 1 + (t.func.blocks.map fun b => b.succs.length).sum
  evals_le : s.stats.instrEvals + s.stats.phiEvals ≤ t.func.values.length +
    (t.func.blocks.map fun b => b.phis.length * (b.preds.length + 1)).sum +
    2 * (t.func.values.map fun v => v.uses.length).sum

theorem Controlled.bounded (wf : t.func.WellFormed) {todo : List ValueId} {s s' : State}
    (h : t.Controlled todo s) (htally : t.Tallied s')
    (hedges : s'.stats.edgesVisited = s.visited.length)
    (hevals : s'.stats.evals ≤ t.evalCredit s.toSolution) : t.Bounded s' := by
  have hdepth : (t.func.values.map fun v => (s'.assignment v.id).depth).sum ≤
      (t.func.values.map fun _ => 2).sum :=
    List.sum_le_sum fun v _ => Fact.depth_le_two _
  have htwo : (t.func.values.map fun _ => 2).sum = 2 * t.func.values.length := by
    simp [Nat.mul_comm]
  refine ⟨fun id => (htally.stores_le id).trans (Fact.depth_le_two _), ?_, ?_, ?_⟩
  · exact (htally.updates_le.trans hdepth).trans_eq htwo
  · rw [hedges]
    exact h.visited_length_le wf
  · exact hevals.trans (evalCredit_le wf h)

theorem Midway.bounded (wf : t.func.WellFormed)
    (hfalls : ∀ {n todo s}, t.Midway n todo s → t.Falls s) {n : Nat} {todo : List ValueId}
    {s : State} (h : t.Midway n todo s) : t.Bounded s := by
  obtain ⟨hedges, hevals⟩ := h.metered wf hfalls
  exact (h.controlled wf).bounded wf (h.steady (steady_tallied wf) hfalls) hedges (by omega)

theorem Stops.bounded (wf : t.func.WellFormed)
    (hfalls : ∀ {n todo s}, t.Midway n todo s → t.Falls s) {n : Nat} {f : Failure} {s : State}
    (h : t.Stops n f s) : t.Bounded s := by
  have htally : t.Tallied s :=
    h.steady (steady_tallied wf) (fun hv hf hb htally => htally.breaks wf hv hf hb) hfalls
  -- An evaluation that fails is paid for as one that does not.
  have hbreaks : ∀ {id v todo todo' s₀}, t.Controlled todo' s₀ → t.Metered (id :: todo) s₀ →
      t.Breaks v s₀ f s → t.Bounded s := by
    intro id v todo todo' s₀ hc hmeter hb
    obtain ⟨hedges, hevals⟩ := hb.stats
    have hpaid := hmeter.evals
    rw [List.length_cons] at hpaid
    exact hc.bounded wf htally (hedges.trans hmeter.edges) (by omega)
  cases h with
  | enter hm hq hv hw =>
    obtain ⟨b, hb⟩ := (hm.coherent wf).edge_block _ (hq.mem_iff.mpr (Or.inl rfl))
    exact (Midway.enter hm hq hv hb).bounded wf hfalls
  | visit hm hv hb => exact hbreaks (hm.controlled wf) (hm.metered wf hfalls) hb
  | @revisit n id rest v f s₀ s hm hq hv hb =>
    obtain ⟨h₁, h₂, h₃, h₄, h₅, h₆⟩ := hm.controlled wf
    have hc : t.Controlled [] (s₀.taken id rest) := ⟨h₁, h₂, h₃, h₄, h₅, h₆⟩
    exact hbreaks hc ((hm.metered wf hfalls).taken hq) hb

theorem Occurs.bounded (wf : t.func.WellFormed)
    (hfalls : ∀ {n todo s}, t.Midway n todo s → t.Falls s) {s : State} (h : t.Occurs s) :
    t.Bounded s := by
  refine h.of_midway wf ?_ (fun _ _ _ hs => ⟨hs.stores_le, hs.updates_le, hs.edges_le, hs.evals_le⟩)
    (fun _ _ hs => ⟨hs.stores_le, hs.updates_le, hs.edges_le, hs.evals_le⟩) (·.bounded wf hfalls)
    (·.bounded wf hfalls)
  exact ⟨fun _ => Nat.zero_le _, Nat.zero_le _, Nat.zero_le _, Nat.zero_le _⟩

/-- A run that checks its facts ends, whatever the order in which items are taken, and wherever it
is or ends, by a failure or not, what it has done is bounded by the size of the function. -/
theorem checked_work_bounded (hfn : t.func.Accepted) (hcheck : t.options.checkMonotonic = true) :
    (∀ n s, t.Reaches n s → n ≤ t.workLimit) ∧
    (∀ limit, 2 * t.workLimit + 2 ≤ limit →
      (t.analyze limit).failure ≠ some .unsettled ∧ t.Occurs (t.analyze limit).state) ∧
    ∀ s, t.Occurs s → t.Bounded s := by
  have wf := hfn.wellFormed
  have hfalls : ∀ {n todo s}, t.Midway n todo s → t.Falls s := fun _ => Or.inl hcheck
  refine ⟨fun n s h => h.le_workLimit wf hfalls, fun limit hlimit => ?_,
    fun s h => h.bounded wf hfalls⟩
  have hsettled := analyze_ne_unsettled wf hfalls hlimit
  refine ⟨hsettled, ?_⟩
  cases hf : (t.analyze limit).failure with
  | none => exact Or.inr (Or.inl (returns_of_analyze hf))
  | some f =>
    rcases aborts_of_analyze hf with ⟨rfl, -⟩ | habort
    · exact absurd hf hsettled
    · exact Or.inr (Or.inr ⟨f, habort⟩)

/-- The loop takes twelve evaluations, where its size allows twenty-three. -/
theorem checked_work_bounded_counting :
    counting.func.Accepted ∧ counting.options.checkMonotonic = true ∧
      counting.Returns (counting.analyze 40).state ∧
      (∀ n s, counting.Reaches n s → n ≤ 15) ∧ (counting.analyze 40).state.stats.evals = 12 ∧
      counting.Bounded (counting.analyze 40).state := by
  obtain ⟨hends, -, hbounded⟩ := checked_work_bounded (t := counting) Func.counting_accepted rfl
  have hlimit : counting.workLimit ≤ 15 := by decide +kernel
  have hevals : (counting.analyze 40).state.stats.evals = 12 := by decide +kernel
  exact ⟨Func.counting_accepted, rfl, counting_returns, fun n s h => (hends n s h).trans hlimit,
    hevals, hbounded _ (Or.inr (Or.inl counting_returns))⟩

end Task

end TypeFlow
