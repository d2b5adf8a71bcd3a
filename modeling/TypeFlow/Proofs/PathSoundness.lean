import TypeFlow.Proofs.Fixpoint

/-! Facts hold along every path. Walk through a function from its entry and note for every φ-node
which literal or instruction its value first came from. Wherever the walk has got to, what is known
about a φ-node is known about the origin of its value. -/

namespace TypeFlow

/-- Which literal or instruction the value of a φ-node came from, if it has one. -/
abbrev Origins := ValueId → Option Operand

namespace Func

variable {fn : Func}

def origin? (fn : Func) (env : Origins) : Operand → Option Operand
  | .literal lit => some (.literal lit)
  | .value id =>
    match fn.value? id with
    | some v => if v.isPhi then env id else some (.value id)
    | none => none

/-- Control takes an edge, and all φ-nodes of the block that it enters take their values at once,
from what was there before. -/
def cross (fn : Func) (env : Origins) (e : Edge) : Origins := fun id =>
  match fn.value? id with
  | some v =>
    if v.isPhi ∧ v.block = e.dst then
      (v.edges.find? (·.pred = e.src)).bind fun i => fn.origin? env i.arg
    else env id
  | none => none

/-- Some walk from the entry has got to a block with these origins. -/
inductive Walk (fn : Func) : BlockId → Origins → Prop
  | enter : fn.Walk fn.entry (fn.cross (fun _ => none) ⟨noBlock, fn.entry⟩)
  | follow {b c : BlockId} {env : Origins} {v : Value} (h : fn.Walk b env)
    (hv : fn.terminator? b = some v) (hc : c ∈ v.targets) : fn.Walk c (fn.cross env ⟨b, c⟩)

theorem WellFormed.follows (wf : fn.WellFormed) {b c : BlockId} {v : Value}
    (hv : fn.terminator? b = some v) (hc : c ∈ v.targets) : fn.Follows true b c := by
  obtain ⟨blk, hblk, hm, hval, -⟩ := wf.terminator hv
  obtain ⟨w, hw, hp, -⟩ := wf.instr_value hblk hm
  obtain rfl : w = v := Option.some.inj (hw.symm.trans hval)
  have hlen : 0 < w.op.targetCount := by
    rw [← wf.targets_length hval hp]
    exact List.length_pos_of_mem hc
  refine ⟨w, hv, hc, ?_⟩
  cases hop : w.op <;> simp_all [Opcode.targetCount]

end Func

namespace Fact

def Informs (f : Fact) : Prop := f.kind = .bool ∨ f.kind = .type

theorem Informs.ne_top {f : Fact} (h : f.Informs) : f ≠ top := by
  rintro rfl
  simp [Informs, top] at h

theorem Informs.ne_bottom {f : Fact} (h : f.Informs) : f ≠ bottom := by
  rintro rfl
  simp [Informs, bottom] at h

end Fact

namespace Solution

variable {s : Solution}

/-- What is known about a φ-node is known about everything that flows in. -/
theorem operand?_of_meetIncoming? {block : BlockId} {cur f : Fact} {edges : List Incoming}
    (h : s.meetIncoming? block cur edges = some f) (hf : f.Informs) :
    (cur = Fact.top ∨ cur = f) ∧ ∀ i ∈ edges, s.isVisited ⟨i.pred, block⟩ = true →
      s.operand? i.arg = some f := by
  induction edges generalizing cur with
  | nil =>
    obtain rfl : cur = f := Option.some.inj h
    exact ⟨Or.inr rfl, by simp⟩
  | cons i edges ih =>
    unfold meetIncoming? at h
    by_cases hv : s.isVisited ⟨i.pred, block⟩ = true
    · rw [if_pos hv] at h
      split at h
      · cases h
      next g hg =>
      by_cases htop : g = Fact.top
      · rw [if_pos htop] at h
        exact absurd (Option.some.inj h).symm hf.ne_top
      rw [if_neg htop] at h
      by_cases hcur : cur = Fact.top
      · rw [if_pos hcur] at h
        obtain ⟨hg', hrest⟩ := ih h
        obtain rfl : g = f := hg'.resolve_left htop
        exact ⟨Or.inl hcur, by simpa [hg] using hrest⟩
      rw [if_neg hcur] at h
      by_cases hne : g ≠ cur
      · rw [if_pos hne] at h
        exact absurd (Option.some.inj h).symm hf.ne_bottom
      rw [if_neg hne] at h
      obtain ⟨hcur', hrest⟩ := ih h
      obtain rfl : cur = f := hcur'.resolve_left hcur
      obtain rfl : g = cur := not_not.mp hne
      exact ⟨Or.inr rfl, by simpa [hg] using hrest⟩
    · rw [if_neg hv] at h
      obtain ⟨hcur, hrest⟩ := ih h
      refine ⟨hcur, fun i' hi' hv' => ?_⟩
      rcases List.mem_cons.mp hi' with rfl | hi'
      · exact absurd hv' hv
      · exact hrest i' hi' hv'

end Solution

namespace Task

variable {t : Task}

def Backs (s : State) (env : Origins) : Prop :=
  ∀ {id o f}, env id = some o → s.fact? id = some f → f.Informs → s.operand? o = some f

theorem Backs.cross (wf : t.func.WellFormed) {s : State} (h : t.Returns s) {env : Origins}
    (hs : Backs s env) {e : Edge} (hv : s.isVisited e = true)
    (hr : s.isReachable e.dst = true) : Backs s (t.func.cross env e) := by
  intro id o f ho hf hi
  unfold Func.cross at ho
  split at ho
  swap
  · cases ho
  next v hval =>
  by_cases hp : v.isPhi = true ∧ v.block = e.dst
  · rw [if_pos hp] at ho
    obtain ⟨i, hfind, horigin⟩ := Option.bind_eq_some_iff.mp ho
    have hpred : i.pred = e.src := by simpa using List.find?_some hfind
    have hphi : s.phiFact? v = some f := by
      have heq := (h.fact?_eq wf hval (hp.2 ▸ hr)).1
      rwa [hf, Solution.valueFact?, if_pos hp.1, eq_comm] at heq
    have harg : s.operand? i.arg = some f := by
      refine (Solution.operand?_of_meetIncoming? hphi hi).2 i (List.mem_of_find?_eq_some hfind) ?_
      rw [hpred, hp.2]
      exact hv
    -- What flows in is its own origin, unless it is a φ-node, which has one already.
    cases hi' : i.arg with
    | literal lit =>
      rw [hi'] at horigin harg
      cases horigin
      exact harg
    | value d =>
      rw [hi'] at horigin harg
      simp only [Func.origin?] at horigin
      split at horigin
      swap
      · cases horigin
      split at horigin
      · exact hs horigin harg hi
      · cases horigin
        exact harg
  · rw [if_neg hp] at ho
    exact hs ho hf hi

theorem Returns.walk (wf : t.func.WellFormed) (hb : t.options.branchSuccessors = true) {s : State}
    (h : t.Returns s) {b : BlockId} {env : Origins} (hw : t.func.Walk b env) :
    s.isReachable b = true ∧ Backs s env := by
  induction hw with
  | enter =>
    have hr : s.isReachable t.func.entry = true := (h.isReachable_iff wf).mpr .refl
    have hnone : Backs s fun _ => none := fun ho => by cases ho
    exact ⟨hr, hnone.cross wf h ((h.isVisited_iff wf).mpr (Or.inl rfl)) hr⟩
  | @follow b c env v _ hv hc ih =>
    obtain ⟨hreach, hs⟩ := ih
    have hf : t.Follows b c := by
      rw [Task.Follows, hb]
      exact wf.follows hv hc
    have hr : s.isReachable c = true :=
      (h.isReachable_iff wf).mpr (((h.isReachable_iff wf).mp hreach).tail hf)
    exact ⟨hr, hs.cross wf h ((h.isVisited_iff wf).mpr (Or.inr ⟨hreach, hf⟩)) hr⟩

/-- Wherever a walk has got to, a boolean or type that is known for a φ-node is known for the
literal or instruction that its value came from. -/
theorem path_soundness {s : State} (hfn : t.func.Accepted)
    (hb : t.options.branchSuccessors = true) (h : t.Returns s) {b : BlockId} {env : Origins}
    (hw : t.func.Walk b env) {phi : ValueId} {o : Operand} {f : Fact} (ho : env phi = some o)
    (hf : s.fact? phi = some f) (hi : f.kind = .bool ∨ f.kind = .type) : s.operand? o = some f :=
  (h.walk hfn.wellFormed hb hw).2 ho hf hi

/-- Once round the loop, the flag is still the literal that the entry gave it. -/
theorem path_soundness_counting :
    ∃ env : Origins, counting.func.Accepted ∧ counting.options.branchSuccessors = true ∧
      counting.Returns (counting.analyze 40).state ∧ counting.func.Walk 1 env ∧
      env 1 = some (.literal (.ofBool true)) ∧
      (counting.analyze 40).state.fact? 1 = some (Fact.ofBool true) ∧
      (counting.analyze 40).state.operand? (.literal (.ofBool true)) =
        some (Fact.ofBool true) := by
  have hjmp : counting.func.terminator? 0 =
      some { id := 0, block := 0, op := .jmp, targets := [1] } := by decide +kernel
  have hbr : counting.func.terminator? 1 =
      some { id := 4, block := 1, op := .br, args := [.value 1], targets := [1, 2] } := by
    decide +kernel
  have hw := (Func.Walk.enter.follow hjmp (c := 1) (by simp)).follow hbr (c := 1) (by simp)
  have ho : counting.func.cross (counting.func.cross (counting.func.cross (fun _ => none)
      ⟨noBlock, 0⟩) ⟨0, 1⟩) ⟨1, 1⟩ 1 = some (.literal (.ofBool true)) := by decide +kernel
  have hf : (counting.analyze 40).state.fact? 1 = some (Fact.ofBool true) := by decide +kernel
  exact ⟨_, Func.counting_accepted, rfl, counting_returns, hw, ho, hf,
    path_soundness Func.counting_accepted rfl counting_returns hw ho hf (Or.inl rfl)⟩

end Task

end TypeFlow
