import TypeFlow.Proofs.Descent
import TypeFlow.Proofs.Fixpoint

/-! Runs on functions in strict form, where what flows into a φ-node was computed on every way to
the edge it flows along. In such a run nothing unknown ever flows into a φ-node along a visited
edge, so the fact of a φ-node is the greatest lower bound of what flows in, and facts only sink. -/

namespace TypeFlow

namespace Func

/-- The blocks on some way from the entry to a block, both ends included, the last one first. -/
inductive Path (fn : Func) : BlockId → List BlockId → Prop
  | entry : fn.Path fn.entry [fn.entry]
  | step {p c : BlockId} {path : List BlockId} {v : Value} (h : fn.Path p path)
    (hv : fn.terminator? p = some v) (hc : c ∈ v.targets) : fn.Path c (c :: path)

/-- Every way from the entry to `p` passes through `d`. -/
def Dominates (fn : Func) (d p : BlockId) : Prop := ∀ path, fn.Path p path → d ∈ path

theorem Path.mem_self {fn : Func} {b : BlockId} {path : List BlockId} (h : fn.Path b path) :
    b ∈ path := by
  cases h <;> exact List.mem_cons_self

structure Strict (fn : Func) : Prop where
  entry_phis : ∀ {b}, fn.block? fn.entry = some b → b.phis = []
  covers : ∀ {i b id v p}, fn.block? i = some b → id ∈ b.phis → fn.value? id = some v →
    p ∈ b.preds → ∃ e ∈ v.edges, e.pred = p
  dominates : ∀ {id v e d w}, fn.value? id = some v → v.isPhi = true → e ∈ v.edges →
    e.arg = .value d → fn.value? d = some w → fn.Dominates w.block e.pred

variable {fn : Func}

theorem Strict.block_ne_entry (hs : fn.Strict) (wf : fn.WellFormed) {id : ValueId} {v : Value}
    (hv : fn.value? id = some v) (hp : v.isPhi = true) : v.block ≠ fn.entry := by
  intro he
  obtain ⟨b, hb, hm⟩ := wf.listed hv
  rw [if_pos hp, hs.entry_phis (he ▸ hb)] at hm
  cases hm

end Func

theorem Literal.fact_ne_top (c : Literal) : c.fact ≠ Fact.top := by
  unfold fact
  split_ifs
  · exact Fact.ofBool_ne_top true
  · exact Fact.ofBool_ne_top false
  · exact Fact.ofType_ne_top c.type

def Operand.fact (facts : ValueId → Fact) : Operand → Fact
  | .value id => facts id
  | .literal lit => lit.fact

theorem Operand.fact_mono {V W : ValueId → Fact} (h : ∀ id, V id ≤ W id) (op : Operand) :
    op.fact V ≤ op.fact W := by
  cases op with
  | value id => exact h id
  | literal lit => exact le_rfl

namespace Solution

variable {s s' : Solution}

theorem operand?_eq_some {op : Operand} {g : Fact} (h : s.operand? op = some g) :
    op.fact s.assignment = g := by
  cases op with
  | value id => exact assignment_eq_of_fact? h
  | literal lit => exact Option.some.inj h

/-- Nothing unknown flows into a φ-node along a visited edge. -/
def Feeds (s : Solution) (phi : Value) : Prop :=
  ∀ {i}, i ∈ phi.edges → s.isVisited ⟨i.pred, phi.block⟩ = true →
    i.arg.fact s.assignment ≠ Fact.top

/-- Either something unknown flows in, and then the result is unknown, or the result is a lower
bound of what flows in. -/
theorem meetIncoming?_cases {block : BlockId} {edges : List Incoming} {cur f : Fact}
    (h : s.meetIncoming? block cur edges = some f) :
    (f = Fact.top ∧ ∃ i ∈ edges, s.isVisited ⟨i.pred, block⟩ = true ∧
        s.operand? i.arg = some Fact.top) ∨
      f ≤ cur ∧ ∀ i ∈ edges, s.isVisited ⟨i.pred, block⟩ = true →
        f ≤ i.arg.fact s.assignment := by
  induction edges generalizing cur with
  | nil =>
    obtain rfl : cur = f := Option.some.inj h
    exact Or.inr ⟨le_rfl, by simp⟩
  | cons i edges ih =>
    simp only [List.exists_mem_cons_iff, List.forall_mem_cons]
    unfold meetIncoming? at h
    by_cases hv : s.isVisited ⟨i.pred, block⟩ = true
    swap
    · rw [if_neg hv] at h
      rcases ih h with ⟨hf, htop⟩ | ⟨hcur, hall⟩
      · exact Or.inl ⟨hf, Or.inr htop⟩
      · exact Or.inr ⟨hcur, fun hv' => absurd hv' hv, hall⟩
    rw [if_pos hv] at h
    split at h
    · cases h
    next g hg =>
    rw [operand?_eq_some hg]
    by_cases hgtop : g = Fact.top
    · rw [if_pos hgtop] at h
      exact Or.inl ⟨(Option.some.inj h).symm, Or.inl ⟨hv, hg.trans (congrArg some hgtop)⟩⟩
    rw [if_neg hgtop] at h
    by_cases hcur : cur = Fact.top
    · rw [if_pos hcur] at h
      rcases ih h with ⟨hf, htop⟩ | ⟨hle, hall⟩
      · exact Or.inl ⟨hf, Or.inr htop⟩
      · exact Or.inr ⟨hcur ▸ Fact.le_top f, fun _ => hle, hall⟩
    rw [if_neg hcur] at h
    by_cases hne : g = cur
    · rw [if_neg (not_not.mpr hne)] at h
      rcases ih h with ⟨hf, htop⟩ | ⟨hle, hall⟩
      · exact Or.inl ⟨hf, Or.inr htop⟩
      · exact Or.inr ⟨hle, fun _ => hne ▸ hle, hall⟩
    · rw [if_pos hne] at h
      obtain rfl : Fact.bottom = f := Option.some.inj h
      exact Or.inr ⟨Fact.bottom_le _, fun _ => Fact.bottom_le _, fun _ _ _ => Fact.bottom_le _⟩

theorem le_meetIncoming? {block : BlockId} {edges : List Incoming} {a cur f : Fact}
    (hcur : a ≤ cur) (hin : ∀ i ∈ edges, s.isVisited ⟨i.pred, block⟩ = true →
      a ≤ i.arg.fact s.assignment) (h : s.meetIncoming? block cur edges = some f) : a ≤ f := by
  induction edges generalizing cur with
  | nil =>
    obtain rfl : cur = f := Option.some.inj h
    exact hcur
  | cons i edges ih =>
    obtain ⟨hfirst, hrest⟩ := List.forall_mem_cons.mp hin
    unfold meetIncoming? at h
    by_cases hv : s.isVisited ⟨i.pred, block⟩ = true
    swap
    · rw [if_neg hv] at h
      exact ih hcur hrest h
    rw [if_pos hv] at h
    split at h
    · cases h
    next g hg =>
    have hag := hfirst hv
    rw [operand?_eq_some hg] at hag
    split_ifs at h with hgtop hctop hne
    · rw [← Option.some.inj h]
      exact Fact.le_top a
    · exact ih hag hrest h
    · -- Two distinct known facts have only the least fact below them.
      rw [← Option.some.inj h]
      rw [Fact.le_iff] at hcur hag ⊢
      grind
    · exact ih hcur hrest h

theorem phiFact?_cases {phi : Value} {f : Fact} (h : s.phiFact? phi = some f) :
    (f = Fact.top ∧ ∃ i ∈ phi.edges, s.isVisited ⟨i.pred, phi.block⟩ = true ∧
        s.operand? i.arg = some Fact.top) ∨
      ∀ i ∈ phi.edges, s.isVisited ⟨i.pred, phi.block⟩ = true → f ≤ i.arg.fact s.assignment :=
  (meetIncoming?_cases h).imp_right And.right

theorem le_phiFact? {phi : Value} {a f : Fact}
    (hin : ∀ i ∈ phi.edges, s.isVisited ⟨i.pred, phi.block⟩ = true →
      a ≤ i.arg.fact s.assignment) (h : s.phiFact? phi = some f) : a ≤ f :=
  le_meetIncoming? (Fact.le_top a) hin h

/-- The fact of a φ-node is the greatest lower bound of what flows in along visited edges. -/
theorem le_phiFact?_iff {phi : Value} (hin : s.Feeds phi) {a f : Fact}
    (h : s.phiFact? phi = some f) :
    a ≤ f ↔ ∀ i ∈ phi.edges, s.isVisited ⟨i.pred, phi.block⟩ = true →
      a ≤ i.arg.fact s.assignment := by
  refine ⟨fun ha => ?_, fun hall => le_phiFact? hall h⟩
  rcases phiFact?_cases h with ⟨-, i, hi, hv, htop⟩ | hall
  · exact absurd (operand?_eq_some htop) (hin hi hv)
  · exact fun i hi hv => ha.trans (hall i hi hv)

theorem valueFact?_mono {v : Value} (hin : v.isPhi = true → s.Feeds v)
    (hin' : v.isPhi = true → s'.Feeds v)
    (hvisit : ∀ e, s.isVisited e = true → s'.isVisited e = true)
    (hfacts : ∀ id, s'.assignment id ≤ s.assignment id)
    {f f' : Fact} (hf : s.valueFact? v = some f) (hf' : s'.valueFact? v = some f') : f' ≤ f := by
  cases hp : v.isPhi
  · rw [valueFact?_of_not_isPhi hp] at hf hf'
    rw [← Option.some.inj hf, ← Option.some.inj hf']
  · simp only [valueFact?, hp, if_true] at hf hf'
    refine (le_phiFact?_iff (hin hp) hf).mpr fun i hi hv => ?_
    have hle := (le_phiFact?_iff (hin' hp) hf').mp le_rfl i hi (hvisit _ hv)
    exact hle.trans (i.arg.fact_mono hfacts)

end Solution

namespace Task

variable {t : Task}

/-- What is known in a run on a strict function while the values `todo` are still to be
evaluated. -/
structure Known (t : Task) (todo : List ValueId) (s : State) : Prop where
  passed : ∀ {b}, s.isReachable b = true →
    ∃ path, t.func.Path b path ∧ ∀ c ∈ path, s.isReachable c = true
  feeds : ∀ {id v}, t.func.value? id = some v → v.isPhi = true → s.Feeds v
  ne_top : ∀ {id v}, t.func.value? id = some v → s.isReachable v.block = true → id ∉ todo →
    s.assignment id ≠ Fact.top

namespace Known

theorem begin {s : State} (h : t.begin (.initial t.func) = .ok () s) : t.Known [] s := by
  obtain rfl := begin_eq h
  constructor
  · intro b hr
    cases hr
  · intro id v _ _ i _ hv
    cases hv
  · intro id v _ hr
    cases hr

/-- What is computed on the way to the source of an edge is known when the edge is taken. -/
theorem operand_ne_top (hs : t.func.Strict) (wf : t.func.WellFormed) {s : State}
    (h : t.Known [] s) {id : ValueId} {v : Value} {i : Incoming}
    (hv : t.func.value? id = some v) (hp : v.isPhi = true) (hi : i ∈ v.edges)
    (hr : s.isReachable i.pred = true) : i.arg.fact s.assignment ≠ Fact.top := by
  cases harg : i.arg with
  | literal lit => exact lit.fact_ne_top
  | value d =>
    obtain ⟨w, hw⟩ := wf.edge_value hv hp hi harg
    obtain ⟨path, hpath, hall⟩ := h.passed hr
    exact h.ne_top hw (hall _ (hs.dominates hv hp hi harg hw path hpath)) List.not_mem_nil

theorem passed_enter {s : State} (h : t.Known [] s) {e : Edge} {rest : Queue Edge}
    (hsource : e = t.entryEdge ∨ s.isReachable e.src = true ∧ t.Follows e.src e.dst) {c : BlockId}
    (hr : (({ s with edges := rest } : State).entered e).isReachable c = true) :
    ∃ path, t.func.Path c path ∧
      ∀ b ∈ path, (({ s with edges := rest } : State).entered e).isReachable b = true := by
  have hreach := State.isReachable_entered { s with edges := rest } e
  have hold : ∀ {c}, s.isReachable c = true → ∃ path, t.func.Path c path ∧
      ∀ b ∈ path, (({ s with edges := rest } : State).entered e).isReachable b = true := by
    intro c hr
    obtain ⟨path, hpath, hall⟩ := h.passed hr
    exact ⟨path, hpath, fun b hb => (hreach b).mpr (Or.inr (hall b hb))⟩
  rcases (hreach c).mp hr with rfl | hr
  swap
  · exact hold hr
  rcases hsource with he | ⟨hsrc, v, hv, hdst, -⟩
  · have hdst : e.dst = t.func.entry := congrArg Edge.dst he
    rw [hdst]
    refine ⟨_, .entry, fun b hb => (hreach b).mpr (Or.inl ?_)⟩
    exact (List.mem_singleton.mp hb).trans hdst.symm
  · obtain ⟨path, hpath, hall⟩ := hold hsrc
    refine ⟨_, hpath.step hv hdst, fun b hb => ?_⟩
    rcases List.mem_cons.mp hb with rfl | hb
    · exact (hreach _).mpr (Or.inl rfl)
    · exact hall b hb

theorem enter (hs : t.func.Strict) (wf : t.func.WellFormed) {s : State} (h : t.Known [] s)
    (hc : t.Controlled [] s) {e : Edge} {rest : Queue Edge} {b : Block}
    (hq : s.edges.Takes e rest) (hb : t.func.block? e.dst = some b) :
    t.Known (if s.isReachable e.dst then b.phis else b.members)
      (({ s with edges := rest } : State).entered e) := by
  have hreach := State.isReachable_entered { s with edges := rest } e
  have hvisit := State.isVisited_entered { s with edges := rest } e
  have hsource := hc.source (Or.inr (hq.mem_iff.mpr (Or.inl rfl)))
  refine ⟨h.passed_enter hsource, ?_, ?_⟩
  · intro id v hv hp i hi hvis
    rcases (hvisit _).mp hvis with he | hold
    · -- The new edge does not enter the function, since the entry has no φ-nodes.
      rcases hsource with hentry | ⟨hsrc, -⟩
      · exact absurd (congrArg Edge.dst (he.trans hentry)) (hs.block_ne_entry wf hv hp)
      · have hpred : i.pred = e.src := congrArg Edge.src he
        exact h.operand_ne_top hs wf hv hp hi (by rwa [hpred])
    · exact h.feeds hv hp hi hold
  · intro id v hv hr htodo
    by_cases hold : s.isReachable v.block = true
    · exact h.ne_top hv hold List.not_mem_nil
    · have hnew : v.block = e.dst := ((hreach _).mp hr).resolve_right hold
      rw [hnew] at hold
      rw [if_neg hold] at htodo
      exact absurd (wf.mem_members hv (hnew ▸ hb)) htodo

theorem valueFact?_ne_top (hs : t.func.Strict) (wf : t.func.WellFormed) {todo : List ValueId}
    {s : State} (h : t.Known todo s) (hc : t.Controlled todo s) {id : ValueId} {v : Value}
    (hv : t.func.value? id = some v) (hr : s.isReachable v.block = true) :
    s.valueFact? v ≠ some Fact.top := by
  intro hf
  cases hp : v.isPhi
  · rw [Solution.valueFact?_of_not_isPhi hp] at hf
    exact v.op.fact_ne_top (Option.some.inj hf)
  · -- The block was entered along some edge, and the φ-node has something that flows in there.
    obtain ⟨e, he, hdst⟩ := hc.reachable_iff.mp hr
    rcases hc.source (Or.inl he) with hentry | ⟨-, u, hu, htarget, -⟩
    · exact hs.block_ne_entry wf hv hp (hdst.symm.trans (congrArg Edge.dst hentry))
    obtain ⟨b, hb, hm⟩ := wf.listed hv
    rw [if_pos hp] at hm
    rw [hdst] at htarget
    obtain ⟨i, hi, hpred⟩ := hs.covers hb hm hv ((wf.preds_iff hb).mpr ⟨u, hu, htarget⟩)
    have hvis : s.isVisited ⟨i.pred, v.block⟩ = true := by
      rw [hpred, ← hdst]
      exact he
    rw [Solution.valueFact?, if_pos hp] at hf
    have hle := (Solution.le_phiFact?_iff (h.feeds hv hp) hf).mp le_rfl i hi hvis
    exact h.feeds hv hp hi hvis (le_antisymm (Fact.le_top _) hle)

theorem evaluates (wf : t.func.WellFormed) {todo : List ValueId} {s s' : State} {id : ValueId}
    {v : Value} (h : t.Known (id :: todo) s) (hv : t.func.value? id = some v)
    (hne : s.valueFact? v ≠ some Fact.top) (he : t.Evaluates v s s') : t.Known todo s' := by
  have hreach := he.effect.isReachable_eq
  -- A value whose fact is known stays so, and the one just evaluated becomes so.
  have hfact : ∀ {x}, x = id ∨ s.assignment x ≠ Fact.top → s'.assignment x ≠ Fact.top := by
    intro x hx htop
    rcases he.assignment_cases x with ⟨-, hf⟩ | ⟨hxid, heq⟩
    · exact hne (hf.trans (congrArg some htop))
    · rw [wf.value_id hv] at hxid
      exact hx.resolve_left hxid (heq.symm.trans htop)
  refine ⟨?_, ?_, ?_⟩
  · intro b hr
    simp only [hreach] at hr ⊢
    exact h.passed hr
  · intro x w hw hp i hi hvis
    rw [he.effect.isVisited_eq] at hvis
    have hop := h.feeds hw hp hi hvis
    cases harg : i.arg with
    | literal lit => exact lit.fact_ne_top
    | value d =>
      rw [harg] at hop
      exact hfact (Or.inr hop)
  · intro x w hw hr htodo
    rw [hreach] at hr
    by_cases hxid : x = id
    · exact hfact (Or.inl hxid)
    · exact hfact (Or.inr (h.ne_top hw hr (List.not_mem_cons_of_ne_of_not_mem hxid htodo)))

end Known

theorem Midway.known (hs : t.func.Strict) (wf : t.func.WellFormed) {n : Nat}
    {todo : List ValueId} {s : State} (h : t.Midway n todo s) : t.Known todo s := by
  induction h with
  | begin h => exact .begin h
  | skip hm hq hv ih => exact ⟨ih.passed, ih.feeds, ih.ne_top⟩
  | enter hm hq hv hb ih => exact ih.enter hs wf (hm.controlled wf) hq hb
  | @visit n id todo v s s' hm hv he ih =>
    have hr := (hm.coherent wf).todo_reachable hv
    have hne := ih.valueFact?_ne_top hs wf (hm.controlled wf) hv hr
    obtain ⟨h₁, h₂, h₃⟩ := ih.evaluates wf hv hne he
    exact ⟨h₁, h₂, h₃⟩
  | @revisit n id rest v s s' hm hq hv he ih =>
    have hr := ((hm.coherent wf).ready_reachable hq hv).1
    have hne := ih.valueFact?_ne_top hs wf (hm.controlled wf) hv hr
    have htaken : t.Known [id] (s.taken id rest) :=
      ⟨ih.passed, ih.feeds, fun hw hr _ => ih.ne_top hw hr List.not_mem_nil⟩
    exact htaken.evaluates wf hv hne he

namespace Sinks

theorem evaluates (wf : t.func.WellFormed) {s s' : State} (h : t.Sinks s)
    (hlen : s.facts.length = t.func.values.length)
    (hin : ∀ {id v}, t.func.value? id = some v → v.isPhi = true → s.Feeds v)
    (hin' : ∀ {id v}, t.func.value? id = some v → v.isPhi = true → s'.Feeds v) {id : ValueId}
    {v : Value} (hv : t.func.value? id = some v) (he : t.Evaluates v s s') : t.Sinks s' := by
  intro x w f' hw hf'
  obtain ⟨f, hf⟩ := exists_valueFact wf hlen hw
  have hvisit : ∀ e, s.isVisited e = true → s'.isVisited e = true := fun e hvis => by
    rwa [he.effect.isVisited_eq]
  have hle : f' ≤ f := Solution.valueFact?_mono (hin hw) (hin' hw) hvisit
    (he.assignment_le wf hv (Or.inr h)) hf hf'
  rcases he.assignment_cases x with ⟨hx, hself⟩ | ⟨-, heq⟩
  · obtain rfl : w = v := Option.some.inj (hw.symm.trans (hx.trans (wf.value_id hv) ▸ hv))
    rwa [← Option.some.inj (hf.symm.trans hself)]
  · rw [heq]
    exact hle.trans (h hw hf)

end Sinks

theorem Midway.sinks (hs : t.func.Strict) (wf : t.func.WellFormed) {n : Nat}
    {todo : List ValueId} {s : State} (h : t.Midway n todo s) : t.Sinks s := by
  induction h with
  | begin h =>
    intro id v f hv _
    have htop := (Settled.begin h).untouched hv (by rw [begin_eq h]; rfl)
    rw [Solution.assignment_eq_of_fact? htop]
    exact Fact.le_top f
  | skip hm hq hv ih => exact ih
  | @enter n s e rest b hm hq hv hb ih =>
    intro id v f' hval hf'
    obtain ⟨f, hf⟩ := exists_valueFact wf (hm.coherent wf).facts_length hval
    have hvisit := State.isVisited_entered { s with edges := rest } e
    have hle : f' ≤ f := Solution.valueFact?_mono ((hm.known hs wf).feeds hval)
      (((Midway.enter hm hq hv hb).known hs wf).feeds hval)
      (fun e' he' => (hvisit e').mpr (Or.inr he')) (fun _ => le_rfl) hf hf'
    exact hle.trans (ih hval hf)
  | @visit n id todo v s s' hm hv he ih =>
    have hs' : t.Sinks s' := ih.evaluates wf (hm.coherent wf).facts_length
      (hm.known hs wf).feeds ((Midway.visit hm hv he).known hs wf).feeds hv he
    exact hs'
  | @revisit n id rest v s s' hm hq hv he ih =>
    have htaken : t.Sinks (s.taken id rest) := ih
    exact htaken.evaluates wf (hm.coherent wf).facts_length (hm.known hs wf).feeds
      ((Midway.revisit hm hq hv he).known hs wf).feeds hv he

end Task

end TypeFlow
