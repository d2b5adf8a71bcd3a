import Mathlib.Algebra.Order.BigOperators.Group.List
import Mathlib.Algebra.Order.Ring.Nat
import TypeFlow.Proofs.Descent

/-! Runs in which no fact rises end. Every item that is taken was queued before, an edge by the
first visit of its source and a value by the descent of one of its operands, and both happen only so
often. -/

namespace TypeFlow

theorem sum_map_add_le {α : Type} {f g : α → Nat} {x : α} {c : Nat} {l : List α} (hx : x ∈ l)
    (hc : f x + c ≤ g x) (h : ∀ y ∈ l, f y ≤ g y) : (l.map f).sum + c ≤ (l.map g).sum := by
  obtain ⟨before, after, rfl⟩ := List.append_of_mem hx
  have hbefore : (before.map f).sum ≤ (before.map g).sum :=
    List.sum_le_sum fun y hy => h y (List.mem_append_left _ hy)
  have hafter : (after.map f).sum ≤ (after.map g).sum :=
    List.sum_le_sum fun y hy => h y (List.mem_append_right _ (List.mem_cons_of_mem _ hy))
  simp only [List.map_append, List.map_cons, List.sum_append, List.sum_cons]
  omega

theorem Queue.length_pushAll {α : Type} (q : Queue α) (xs : List α) :
    (q.pushAll xs).length = q.length + xs.length := by
  rw [← length_toList, toList_pushAll, List.length_append, length_toList]

theorem State.length_ready_foldl_scheduled (us : List Use) (s : State) :
    (us.foldl scheduled s).ready.length ≤ s.ready.length + us.length := by
  induction us generalizing s with
  | nil => exact Nat.le_refl _
  | cons u us ih =>
    have hone : (s.scheduled u).ready.length ≤ s.ready.length + 1 := by
      unfold scheduled
      split
      · exact Nat.le_of_eq (Queue.length_pushAll s.ready [u.user])
      · exact Nat.le_succ _
    have hrest := ih (s.scheduled u)
    rw [List.foldl_cons, List.length_cons]
    omega

namespace Task

variable {t : Task}

def exitCount (t : Task) (id : ValueId) : Nat :=
  match t.func.value? id with
  | some v => (v.jumps ++ t.branches v).length
  | none => 0

def blockExits (t : Task) (b : Block) : Nat := (b.members.map t.exitCount).sum

/-- The number of edges that blocks not yet reached may queue. -/
def dormantExits (t : Task) (reached : IntSet) : Nat :=
  (t.func.blocks.map fun b => if reached.contains b.id then 0 else t.blockExits b).sum

/-- How often facts that still descend may queue the users of their values. -/
def slack (t : Task) (facts : ValueId → Fact) : Nat :=
  (t.func.values.map fun v => (2 - (facts v.id).depth) * v.uses.length).sum

/-- The edges that wait or may still be queued while the values `todo` are still to be evaluated. -/
def edgeWork (t : Task) (todo : List ValueId) (s : State) : Nat :=
  s.edges.length + (todo.map t.exitCount).sum + t.dormantExits s.reachable

/-- The values that wait or may still be queued. -/
def valueWork (t : Task) (s : State) : Nat := s.ready.length + t.slack s.assignment

/-- No run in which no fact rises takes more items. -/
def workLimit (t : Task) : Nat :=
  1 + (t.func.blocks.map t.blockExits).sum + (t.func.values.map fun v => 2 * v.uses.length).sum

theorem dormantExits_insert_le (t : Task) (reached : IntSet) (b : BlockId) :
    t.dormantExits (reached.insert b) ≤ t.dormantExits reached := by
  refine List.sum_le_sum fun c _ => ?_
  rw [IntSet.contains_insert]
  cases reached.contains c.id <;> cases c.id == b <;> simp

theorem dormantExits_insert_add_le {reached : IntSet} {b : Block} (hb : b ∈ t.func.blocks)
    (hnew : reached.contains b.id = false) :
    t.dormantExits (reached.insert b.id) + t.blockExits b ≤ t.dormantExits reached := by
  refine sum_map_add_le hb ?_ fun c _ => ?_
  · simp [hnew]
  · rw [IntSet.contains_insert]
    cases reached.contains c.id <;> cases c.id == b.id <;> simp

theorem exitCount_phis (wf : t.func.WellFormed) {i : BlockId} {b : Block}
    (hb : t.func.block? i = some b) : (b.phis.map t.exitCount).sum = 0 := by
  refine List.sum_eq_zero fun n hn => ?_
  obtain ⟨id, hm, rfl⟩ := List.mem_map.mp hn
  obtain ⟨v, hv, hp, -⟩ := wf.phi_value hb hm
  have hop : v.op = .phi := by simpa [Value.isPhi] using hp
  simp [exitCount, hv, Value.jumps, branches, hop]

theorem edgeWork_skip {s : State} {e : Edge} {rest : Queue Edge} (hq : s.edges.Takes e rest) :
    t.edgeWork [] { s with edges := rest } + 1 = t.edgeWork [] s := by
  have hlen := hq.length
  unfold edgeWork
  change rest.length + _ + t.dormantExits s.reachable + 1 = _
  omega

theorem edgeWork_enter (wf : t.func.WellFormed) {s : State} {e : Edge} {rest : Queue Edge}
    {b : Block} (hq : s.edges.Takes e rest) (hb : t.func.block? e.dst = some b) :
    t.edgeWork (if s.isReachable e.dst then b.phis else b.members)
      (({ s with edges := rest } : State).entered e) + 1 ≤ t.edgeWork [] s := by
  have hlen := hq.length
  unfold edgeWork
  change rest.length + _ + t.dormantExits (s.reachable.insert e.dst) + 1 ≤ _
  by_cases hold : s.isReachable e.dst = true
  · have hle := t.dormantExits_insert_le s.reachable e.dst
    rw [if_pos hold, exitCount_phis wf hb]
    simp only [List.map_nil, List.sum_nil]
    omega
  · have hid := wf.block_id hb
    have hnew : s.reachable.contains b.id = false := by
      rw [hid]
      exact Bool.eq_false_iff.mpr hold
    have hle := dormantExits_insert_add_le (mem_of_lookup hb) hnew
    rw [hid] at hle
    rw [if_neg hold]
    change _ + t.blockExits b + _ + 1 ≤ _
    simp only [List.map_nil, List.sum_nil]
    omega

theorem slack_add_le {V W : ValueId → Fact} {v : Value} (hv : v ∈ t.func.values)
    (hself : (V v.id).depth < (W v.id).depth) (hother : ∀ id, id ≠ v.id → W id = V id) :
    t.slack W + v.uses.length ≤ t.slack V := by
  have htwo := (W v.id).depth_le_two
  refine sum_map_add_le hv ?_ fun w _ => ?_
  · rw [← Nat.succ_mul]
    exact Nat.mul_le_mul_right _ (by omega)
  · by_cases hw : w.id = v.id
    · rw [hw]
      exact Nat.mul_le_mul_right _ (by omega)
    · rw [hother w.id hw]

/-- Each time a fact descends it pays for queueing the users of its value. -/
theorem Evaluates.valueWork_le (wf : t.func.WellFormed) {id : ValueId} {v : Value} {s s' : State}
    (he : t.Evaluates v s s') (hv : t.func.value? id = some v) (hfalls : t.Falls s) :
    t.valueWork s' ≤ t.valueWork s := by
  have hother : ∀ x, x ≠ v.id → s'.assignment x = s.assignment x := fun x => he.assignment_other
  have hself : ∀ f, s.valueFact? v = some f → s'.assignment v.id = f := fun f => he.assignment_self
  cases he with
  | same hr hf hold => exact Nat.le_refl _
  | @change old new name hr hf hold hne hle =>
    have hdepth : (s.assignment v.id).depth < new.depth := by
      rw [Solution.assignment_eq_of_fact? hold]
      exact Fact.depth_lt_of_descent (hfalls.le wf hv hf hold hle) hne
    rw [← hself new hf] at hdepth
    have hslack := slack_add_le (mem_of_lookup hv) hdepth hother
    have hready : _ ≤ s.ready.length + v.uses.length := State.length_ready_foldl_scheduled v.uses
      ((s.evaluated v).stored v.id name old new)
    unfold valueWork
    omega

theorem work_begin {s : State} (h : t.begin (.initial t.func) = .ok () s) :
    t.edgeWork [] s + t.valueWork s ≤ t.workLimit := by
  obtain rfl := begin_eq h
  have hslack : t.slack (State.initial t.func).assignment ≤
      (t.func.values.map fun v => 2 * v.uses.length).sum :=
    List.sum_le_sum fun v _ => Nat.mul_le_mul_right _ (Nat.sub_le _ _)
  have hdormant : t.dormantExits (State.initial t.func).reachable =
      (t.func.blocks.map t.blockExits).sum := rfl
  change 1 + 0 + t.dormantExits (State.initial t.func).reachable +
    (0 + t.slack (State.initial t.func).assignment) ≤ _
  unfold workLimit
  omega

theorem edgeWork_visit (todo : List ValueId) {id : ValueId} {v : Value} {s s' : State}
    (hv : t.func.value? id = some v) (he : t.Evaluates v s s') :
    t.edgeWork todo { s' with edges := s'.edges.pushAll (t.branches v) } =
      t.edgeWork (id :: todo) s := by
  have hlen : (s'.edges.pushAll (t.branches v)).length = s.edges.length + t.exitCount id := by
    have hexit : t.exitCount id = v.jumps.length + (t.branches v).length := by
      simp [exitCount, hv]
    rw [Queue.length_pushAll, ← Queue.length_toList, he.effect.edges, List.length_append,
      Queue.length_toList, hexit]
    omega
  unfold edgeWork
  simp only [hlen, he.effect.reachable, List.map_cons, List.sum_cons]
  omega

theorem edgeWork_revisit (wf : t.func.WellFormed) {id : ValueId} {v : Value} {s s' : State}
    (hv : t.func.value? id = some v) (ho : v.operands ≠ []) (he : t.Evaluates v s s') :
    t.edgeWork [] s' = t.edgeWork [] s := by
  -- A jump refers to nothing, so it is never evaluated a second time.
  have hjumps : v.jumps = [] := by
    unfold Value.jumps
    rw [if_neg fun hop => ho (wf.jump_operands hv hop)]
  have hlen : s'.edges.length = s.edges.length := by
    rw [← Queue.length_toList, he.effect.edges, hjumps, List.append_nil, Queue.length_toList]
  simp only [edgeWork, hlen, he.effect.reachable]

/-- Every item that was taken is paid for by work that is no longer to be done. -/
theorem Midway.work_le (wf : t.func.WellFormed)
    (hfalls : ∀ {n todo s}, t.Midway n todo s → t.Falls s) {n : Nat} {todo : List ValueId}
    {s : State} (h : t.Midway n todo s) :
    n + (t.edgeWork todo s + t.valueWork s) ≤ t.workLimit := by
  induction h with
  | begin h =>
    rw [Nat.zero_add]
    exact work_begin h
  | @skip n s e rest hm hq hv ih =>
    have hedges := edgeWork_skip (t := t) hq
    have hvalues : t.valueWork { s with edges := rest } = t.valueWork s := rfl
    omega
  | @enter n s e rest b hm hq hv hb ih =>
    have hedges := edgeWork_enter wf hq hb
    have hvalues : t.valueWork (({ s with edges := rest } : State).entered e) =
        t.valueWork s := rfl
    omega
  | @visit n id todo v s s' hm hv he ih =>
    have hedges := edgeWork_visit todo hv he
    have hvalues : t.valueWork { s' with edges := s'.edges.pushAll (t.branches v) } ≤
        t.valueWork s := he.valueWork_le wf hv (hfalls hm)
    omega
  | @revisit n id rest v s s' hm hq hv he ih =>
    have ho := ((hm.coherent wf).ready_reachable hq hv).2
    have hlen := hq.length
    have hf : t.Falls s := hfalls hm
    have hedges : t.edgeWork [] s' = t.edgeWork [] (s.taken id rest) :=
      edgeWork_revisit wf hv ho he
    have hsame : t.edgeWork [] (s.taken id rest) = t.edgeWork [] s := rfl
    have hvalues : t.valueWork s' ≤ t.valueWork (s.taken id rest) := he.valueWork_le wf hv hf
    have htaken : t.valueWork (s.taken id rest) + 1 = t.valueWork s := by
      unfold valueWork
      change rest.length + t.slack s.assignment + 1 = _
      omega
    omega

theorem Reaches.le_workLimit (wf : t.func.WellFormed)
    (hfalls : ∀ {n todo s}, t.Midway n todo s → t.Falls s) {n : Nat} {s : State}
    (h : t.Reaches n s) : n ≤ t.workLimit := by
  have := (h.midway wf).work_le wf hfalls
  omega

theorem Aborts.ne_unsettled (wf : t.func.WellFormed) {f : Failure} {s : State}
    (h : t.Aborts f s) : f ≠ .unsettled := by
  rintro rfl
  cases h.risks wf

theorem analyze_ne_unsettled (wf : t.func.WellFormed)
    (hfalls : ∀ {n todo s}, t.Midway n todo s → t.Falls s) {limit : Nat}
    (hlimit : 2 * t.workLimit + 2 ≤ limit) : (t.analyze limit).failure ≠ some .unsettled := by
  intro h
  rcases aborts_of_analyze h with ⟨-, n, s, hn, hle⟩ | habort
  · have := hn.le_workLimit wf hfalls
    omega
  · exact habort.ne_unsettled wf rfl

end Task

end TypeFlow
