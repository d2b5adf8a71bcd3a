import TypeFlow.Proofs.FactOrder
import TypeFlow.Proofs.Run
import TypeFlow.Proofs.WellFormed

/-! What the evaluation of one value does to the state of a run. It either succeeds, and then the
fact of the value is what the rest of the state says it is and its users are queued if it changed,
or it fails in one of four ways. -/

namespace TypeFlow

namespace Queue

variable {α : Type}

def pushAll (q : Queue α) (xs : List α) : Queue α := xs.foldl push q

@[simp] theorem toList_empty : ({} : Queue α).toList = [] := rfl

@[simp] theorem pushAll_nil (q : Queue α) : q.pushAll [] = q := rfl

@[simp] theorem pushAll_singleton (q : Queue α) (x : α) : q.pushAll [x] = q.push x := rfl

@[simp] theorem toList_pushAll (q : Queue α) (xs : List α) :
    (q.pushAll xs).toList = q.toList ++ xs := by
  induction xs generalizing q with
  | nil => simp [pushAll]
  | cons x xs ih =>
    change ((q.push x).pushAll xs).toList = _
    rw [ih, toList_push, List.append_assoc, List.singleton_append]

end Queue

def Opcode.fact (op : Opcode) : Fact := op.rule?.getD Fact.bottom

theorem Opcode.fact_ne_top (op : Opcode) : op.fact ≠ Fact.top := by
  cases op with
  | unknown code => exact Fact.top_ne_bottom.symm
  | _ => decide

def Solution.valueFact? (s : Solution) (v : Value) : Option Fact :=
  if v.isPhi then s.phiFact? v else some v.op.fact

/-- The facts of all values, where nothing is known about what is no value. -/
def Solution.assignment (s : Solution) (id : ValueId) : Fact := (s.fact? id).getD Fact.top

namespace Solution

variable {s s' : Solution}

theorem assignment_eq_of_fact? {id : ValueId} {f : Fact} (h : s.fact? id = some f) :
    s.assignment id = f := by
  simp [assignment, h]

theorem exists_fact {fn : Func} (hlen : s.facts.length = fn.values.length) {id : ValueId}
    {v : Value} (hv : fn.value? id = some v) : ∃ f, s.fact? id = some f := by
  obtain ⟨hpos, hlt⟩ := lookup_bounds hv
  exact exists_lookup hpos (by rw [hlen]; exact hlt)

theorem phiFact?_congr {phi : Value}
    (hv : ∀ e ∈ phi.edges, s'.isVisited ⟨e.pred, phi.block⟩ = s.isVisited ⟨e.pred, phi.block⟩)
    (hop : ∀ e ∈ phi.edges, s'.operand? e.arg = s.operand? e.arg) :
    s'.phiFact? phi = s.phiFact? phi := by
  have h : ∀ edges cur, edges ⊆ phi.edges →
      s'.meetIncoming? phi.block cur edges = s.meetIncoming? phi.block cur edges := by
    intro edges
    induction edges with
    | nil => exact fun _ _ => rfl
    | cons e edges ih =>
      intro cur hsub
      have he := hsub List.mem_cons_self
      have hrest : ∀ cur, s'.meetIncoming? phi.block cur edges =
          s.meetIncoming? phi.block cur edges :=
        fun cur => ih cur fun _ hm => hsub (List.mem_cons_of_mem _ hm)
      simp only [meetIncoming?, hv e he, hop e he, hrest]
  exact h phi.edges Fact.top fun _ hm => hm

theorem valueFact?_of_not_isPhi {v : Value} (hp : v.isPhi = false) :
    s.valueFact? v = some v.op.fact := by
  simp [valueFact?, hp]

theorem valueFact?_congr {v : Value}
    (hv : ∀ e ∈ v.edges, s'.isVisited ⟨e.pred, v.block⟩ = s.isVisited ⟨e.pred, v.block⟩)
    (hop : ∀ e ∈ v.edges, s'.operand? e.arg = s.operand? e.arg) :
    s'.valueFact? v = s.valueFact? v := by
  simp only [valueFact?, phiFact?_congr hv hop]

end Solution

/-- The edges that evaluating a value queues. -/
def Value.jumps (v : Value) : List Edge :=
  if v.op = .jmp then v.targets.map fun target => ⟨v.block, target⟩ else []

def Stats.counted (stats : Stats) (v : Value) : Stats :=
  if v.isPhi then { stats with phiEvals := stats.phiEvals + 1 }
  else { stats with instrEvals := stats.instrEvals + 1 }

namespace State

def evaluated (s : State) (v : Value) : State :=
  { s with
    journal := .eval v.id :: s.journal
    stats := s.stats.counted v
    edges := s.edges.pushAll v.jumps }

def stored (s : State) (id : ValueId) (name : Text) (old new : Fact) : State :=
  { s with
    facts := s.facts.set id.toNat new
    stats.updates := s.stats.updates + 1
    journal := .update id name old new :: s.journal }

def scheduled (s : State) (u : Use) : State :=
  if s.isReachable u.block && !s.pending.contains u.user then
    { s with pending := s.pending.insert u.user, ready := s.ready.push u.user }
  else s

/-- From one state to the other nothing is recorded but evaluations of a value and changes of its
fact. -/
def Records (s : State) (id : ValueId) (s' : State) : Prop :=
  ∃ new, s'.journal = new ++ s.journal ∧
    ∀ event ∈ new, event = .eval id ∨ ∃ name old f, event = .update id name old f

/-- The set of pending values mirrors the queue, which holds no value twice. -/
structure Queued (s : State) : Prop where
  pending_iff : ∀ {id}, s.pending.contains id = true ↔ id ∈ s.ready.toList
  nodup : s.ready.toList.Nodup

end State

namespace Task

/-- No rule covers an instruction that the target supports. -/
def rejects (t : Task) (v : Value) : Bool :=
  !v.isPhi && v.op.rule?.isNone && (t.options.target.any fun target => target.supports v.op)

def branches (t : Task) (v : Value) : List Edge :=
  if v.op = .br && t.options.branchSuccessors then v.targets.map fun target => ⟨v.block, target⟩
  else []

/-- Evaluating a value and storing its fact leads from one state to the other. -/
inductive Evaluates (t : Task) (v : Value) (s : State) : State → Prop
  | same {f : Fact} (hr : t.rejects v = false) (hf : s.valueFact? v = some f)
    (hold : s.fact? v.id = some f) : t.Evaluates v s (s.evaluated v)
  | change {old new : Fact} {name : Text} (hr : t.rejects v = false)
    (hf : s.valueFact? v = some new) (hold : s.fact? v.id = some old) (hne : old ≠ new)
    (hle : t.options.checkMonotonic = true → new ≤ old) :
    t.Evaluates v s (v.uses.foldl State.scheduled ((s.evaluated v).stored v.id name old new))

/-- Evaluating a value and storing its fact fails. -/
inductive Breaks (t : Task) (v : Value) (s : State) : Failure → State → Prop
  | evalUnseen (hw : t.options.watch (.eval v.id) = false) :
    t.Breaks v s .unobserved { s with journal := .eval v.id :: s.journal }
  | unhandled {name : Text} {target : Target} (hr : t.rejects v = true)
    (htarget : t.options.target = some target) (hname : t.func.valueName? v.id = some name) :
    t.Breaks v s (.unhandled t.func.name name v.op target.name) (s.evaluated v)
  | ascent {old new : Fact} {name : Text} {fault : Lattice.Fault Fact}
    (hf : s.valueFact? v = some new) (hold : s.fact? v.id = some old)
    (hcheck : t.options.checkMonotonic = true) (hle : ¬ new ≤ old)
    (hname : t.func.valueName? v.id = some name)
    (hfault : Fact.lattice.checkDescent (t.func.name ++ "." ++ name) old new = .error fault) :
    t.Breaks v s (.lattice fault) (s.evaluated v)
  | updateUnseen {old new : Fact} {name : Text} (hf : s.valueFact? v = some new)
    (hold : s.fact? v.id = some old) (hne : old ≠ new)
    (hle : t.options.checkMonotonic = true → new ≤ old)
    (hw : t.options.watch (.update v.id name old new) = false) :
    t.Breaks v s .unobserved ((s.evaluated v).stored v.id name old new)

theorem meets_emit {t : Task} {event : Event} {s : State} {Q : Unit → State → Prop}
    {E : Failure → State → Prop} :
    Meets (t.emit event) s Q E ↔
      if t.options.watch event then Q () { s with journal := event :: s.journal }
      else E .unobserved { s with journal := event :: s.journal } := by
  unfold emit
  cases t.options.watch event <;> simp

theorem meets_schedule {us : List Use} {s : State} {Q : Unit → State → Prop}
    {E : Failure → State → Prop} :
    Meets (us.forM schedule) s Q E ↔ Q () (us.foldl State.scheduled s) := by
  induction us generalizing s with
  | nil => exact Iff.rfl
  | cons u us ih => exact ih (s := s.scheduled u)

theorem meets_pushEdges {src : BlockId} {targets : List BlockId} {s : State}
    {Q : Unit → State → Prop} {E : Failure → State → Prop} :
    Meets (targets.forM fun target => pushEdge ⟨src, target⟩) s Q E ↔
      Q () { s with edges := s.edges.pushAll (targets.map fun target => ⟨src, target⟩) } := by
  induction targets generalizing s with
  | nil => exact Iff.rfl
  | cons c targets ih => exact ih (s := { s with edges := s.edges.push ⟨src, c⟩ })

variable {t : Task}

theorem exists_meetIncoming {s : State} {block : BlockId} {edges : List Incoming}
    (h : ∀ e ∈ edges, ∃ f, s.operand? e.arg = some f) (cur : Fact) :
    ∃ f, s.meetIncoming? block cur edges = some f := by
  induction edges generalizing cur with
  | nil => exact ⟨cur, rfl⟩
  | cons e edges ih =>
    have hrest := ih fun e' he' => h e' (List.mem_cons_of_mem _ he')
    obtain ⟨f, hf⟩ := h e List.mem_cons_self
    simp only [Solution.meetIncoming?, hf]
    split_ifs
    · exact ⟨_, rfl⟩
    · exact hrest f
    · exact ⟨_, rfl⟩
    · exact hrest cur
    · exact hrest cur

theorem exists_valueFact (wf : t.func.WellFormed) {s : State}
    (hlen : s.facts.length = t.func.values.length) {id : ValueId} {v : Value}
    (hv : t.func.value? id = some v) : ∃ f, s.valueFact? v = some f := by
  unfold Solution.valueFact?
  split_ifs with hp
  · refine exists_meetIncoming (fun e he => ?_) _
    cases harg : e.arg with
    | literal lit => exact ⟨_, rfl⟩
    | value d =>
      obtain ⟨w, hw⟩ := wf.edge_value hv hp he harg
      exact Solution.exists_fact hlen hw
  · exact ⟨_, rfl⟩

theorem jumps_of_jmp (wf : t.func.WellFormed) {id : ValueId} {v : Value}
    (hv : t.func.value? id = some v) (hop : v.op = .jmp) :
    ∃ c, v.targets.head? = some c ∧ v.jumps = [⟨v.block, c⟩] := by
  have hlen := wf.targets_length hv (by simp [Value.isPhi, hop])
  rw [hop] at hlen
  obtain ⟨c, hc⟩ := List.length_eq_one_iff.mp hlen
  exact ⟨c, by simp [hc], by simp [Value.jumps, hop, hc]⟩

theorem evalPhi_meets {s : State} {v : Value} {f : Fact} {Q : Fact → State → Prop}
    {E : Failure → State → Prop} (hf : s.phiFact? v = some f) (hQ : Q f s) :
    Meets (evalPhi v) s Q E := by
  simp only [evalPhi, meets_bind, meets_get, hf, meets_need_some, hQ]

theorem transfer_meets (wf : t.func.WellFormed) {s : State} {id : ValueId} {v : Value}
    (hv : t.func.value? id = some v) (hp : v.isPhi = false) {Q : Fact → State → Prop}
    {E : Failure → State → Prop}
    (hok : t.rejects v = false → Q v.op.fact { s with edges := s.edges.pushAll v.jumps })
    (herror : ∀ name target, t.rejects v = true → t.options.target = some target →
      t.func.valueName? v.id = some name →
      E (.unhandled t.func.name name v.op target.name)
        { s with edges := s.edges.pushAll v.jumps }) :
    Meets (t.transfer v) s Q E := by
  unfold transfer
  split
  · next fact hrule =>
    have hr : t.rejects v = false := by simp [rejects, hrule]
    have hf : v.op.fact = fact := by simp [Opcode.fact, hrule]
    have hQ := hok hr
    rw [hf] at hQ
    by_cases hop : v.op = .jmp
    · obtain ⟨c, hc, hj⟩ := jumps_of_jmp wf hv hop
      rw [hj, Queue.pushAll_singleton] at hQ
      simpa only [hop, if_true, meets_bind, hc, meets_need_some, pushEdge, meets_modify,
        meets_pure] using hQ
    · rw [Value.jumps, if_neg hop, Queue.pushAll_nil] at hQ
      simpa [hop] using hQ
  · next hrule =>
    have hop : v.op ≠ .jmp := by
      intro hop
      rw [hop] at hrule
      cases hrule
    have hj : v.jumps = [] := by simp [Value.jumps, hop]
    have hf : v.op.fact = Fact.bottom := by simp [Opcode.fact, hrule]
    rw [hj, hf, Queue.pushAll_nil] at hok
    rw [hj, Queue.pushAll_nil] at herror
    split
    · next target htarget =>
      by_cases hs : target.supports v.op = true
      · have hr : t.rejects v = true := by simp [rejects, hp, hrule, htarget, hs]
        obtain ⟨name, hname⟩ : ∃ name, t.func.valueName? v.id = some name := by
          simp [Func.valueName?, wf.value_id hv, hv]
        have hE := herror name target hr htarget hname
        simpa only [hs, if_true, hname, meets_bind, meets_need_some, meets_throw] using hE
      · have hr : t.rejects v = false := by simp [rejects, htarget, hs]
        have hQ := hok hr
        simpa [hs] using hQ
    · next htarget =>
      have hr : t.rejects v = false := by simp [rejects, htarget]
      exact hok hr

theorem transfer_eq (wf : t.func.WellFormed) {id : ValueId} {v : Value}
    (hv : t.func.value? id = some v) (hp : v.isPhi = false) (hr : t.rejects v = false)
    (s : State) : t.transfer v s = .ok v.op.fact { s with edges := s.edges.pushAll v.jumps } := by
  have hm : Meets (t.transfer v) s
      (fun f s' => f = v.op.fact ∧ s' = { s with edges := s.edges.pushAll v.jumps })
      (fun _ _ => False) :=
    transfer_meets wf hv hp (fun _ => ⟨rfl, rfl⟩) (fun _ _ hr' => by simp [hr] at hr')
  exact hm.eq_ok

theorem fact_of_transfer (wf : t.func.WellFormed) {id : ValueId} {v : Value}
    (hv : t.func.value? id = some v) (hp : v.isPhi = false) {s s' : State} {f : Fact}
    (h : t.transfer v s = .ok f s') : f = v.op.fact := by
  have hm : Meets (t.transfer v) s (fun f _ => f = v.op.fact) (fun _ _ => True) :=
    transfer_meets wf hv hp (fun _ => rfl) (fun _ _ _ _ _ => trivial)
  exact hm.of_ok h

theorem eval_meets (wf : t.func.WellFormed) {s : State}
    (hlen : s.facts.length = t.func.values.length) {id : ValueId} {v : Value}
    (hv : t.func.value? id = some v) {Q : Fact → State → Prop}
    (hok : ∀ f, t.rejects v = false → s.valueFact? v = some f → Q f (s.evaluated v)) :
    Meets (t.eval v) s Q (t.Breaks v s) := by
  obtain ⟨f, hf⟩ := exists_valueFact wf hlen hv
  simp only [eval, meets_bind, meets_emit]
  split_ifs with hw hp
  · have hphi : s.phiFact? v = some f := by simpa only [Solution.valueFact?, hp, if_true] using hf
    have hr : t.rejects v = false := by simp [rejects, hp]
    have hop : v.op ≠ .jmp := by
      intro hop
      simp [Value.isPhi, hop] at hp
    have hQ := hok f hr hf
    simp only [State.evaluated, Stats.counted, hp, if_true, Value.jumps, if_neg hop] at hQ
    simp only [meets_bind, meets_modify]
    refine evalPhi_meets ?_ hQ
    rw [← hphi]
    exact Solution.phiFact?_congr (fun _ _ => rfl) (fun _ _ => rfl)
  · have hp' : v.isPhi = false := by simpa using hp
    have hf' : s.valueFact? v = some v.op.fact := Solution.valueFact?_of_not_isPhi hp'
    simp only [meets_bind, meets_modify]
    refine transfer_meets wf hv hp' (fun hr => ?_) (fun name target hr htarget hname => ?_)
    · have hQ := hok _ hr hf'
      simpa only [State.evaluated, Stats.counted, if_neg hp] using hQ
    · have hb := Breaks.unhandled (s := s) hr htarget hname
      simpa only [State.evaluated, Stats.counted, if_neg hp] using hb
  · exact .evalUnseen (by simpa using hw)

theorem update_meets (wf : t.func.WellFormed) {s : State} {id : ValueId} {v : Value}
    {old new : Fact} (hv : t.func.value? id = some v) (hr : t.rejects v = false)
    (hf : s.valueFact? v = some new) (hold : s.fact? v.id = some old) :
    Meets (t.update v.id new) (s.evaluated v) (fun _ => t.Evaluates v s) (t.Breaks v s) := by
  have hid := wf.value_id hv
  obtain ⟨name, hname⟩ : ∃ name, t.func.valueName? v.id = some name := by
    simp [Func.valueName?, hid, hv]
  have hold' : (s.evaluated v).fact? v.id = some old := hold
  simp only [update, meets_bind, meets_get, hold', meets_need_some]
  by_cases heq : old = new
  · subst heq
    simpa only [if_true, meets_pure] using Evaluates.same hr hf hold
  simp only [if_neg heq, meets_bind, hid, hv, meets_need_some]
  rw [← hid, hname]
  simp only [meets_need_some]
  -- Whatever the check says, the rest of the update is the same.
  have hrest : (t.options.checkMonotonic = true → new ≤ old) →
      Meets (do
        modify fun s => { s with
          facts := s.facts.set v.id.toNat new
          stats.updates := s.stats.updates + 1 }
        t.emit (.update v.id name old new)
        v.uses.forM schedule) (s.evaluated v) (fun _ => t.Evaluates v s) (t.Breaks v s) := by
    intro hle
    simp only [meets_bind, meets_modify, meets_emit, meets_schedule]
    split_ifs with hw
    · exact .change hr hf hold heq hle
    · exact .updateUnseen hf hold heq hle (by simpa using hw)
  split_ifs with hcheck
  · split
    · next fault hfault =>
      refine .ascent hf hold hcheck (fun hle => ?_) hname hfault
      rw [Fact.checkDescent_of_le _ hle] at hfault
      cases hfault
    · next hdescent => exact hrest fun _ => Fact.le_of_checkDescent hdescent
  · exact hrest fun h => absurd h hcheck

theorem visitValue_meets (wf : t.func.WellFormed) {s : State}
    (hlen : s.facts.length = t.func.values.length) {id : ValueId} {v : Value}
    (hv : t.func.value? id = some v) :
    Meets (t.visitValue id) s (fun _ => t.Evaluates v s) (t.Breaks v s) := by
  have hid := wf.value_id hv
  obtain ⟨old, hold⟩ := Solution.exists_fact hlen hv
  simp only [visitValue, hv, meets_bind, meets_need_some]
  refine eval_meets wf hlen hv fun new hr hf => ?_
  rw [← hid]
  rw [← hid] at hold
  exact update_meets wf hv hr hf hold

theorem visitInstr_meets (wf : t.func.WellFormed) {s : State}
    (hlen : s.facts.length = t.func.values.length) {id : ValueId} {v : Value} {b : Block}
    (hv : t.func.value? id = some v) (hb : v.block = b.id) :
    Meets (t.visitInstr b id) s
      (fun _ s' => ∃ s₁, t.Evaluates v s s₁ ∧
        s' = { s₁ with edges := s₁.edges.pushAll (t.branches v) })
      (t.Breaks v s) := by
  have hsplit : t.visitInstr b id = (do
      t.visitValue id
      let v ← need (t.func.value? id)
      if v.op = .br && t.options.branchSuccessors then
        v.targets.forM fun target => pushEdge ⟨b.id, target⟩) := by
    simp only [visitInstr, visitValue, hv, need, pure_bind, bind_assoc]
  rw [hsplit, meets_bind]
  refine (visitValue_meets wf hlen hv).mono (fun _ s₁ hs₁ => ?_) (fun _ _ h => h)
  simp only [hv, meets_bind, meets_need_some, branches]
  split_ifs
  · rw [meets_pushEdges, ← hb]
    exact ⟨s₁, hs₁, rfl⟩
  · exact ⟨s₁, hs₁, rfl⟩

end Task

theorem lookup_set_self {α : Type} {xs : List α} {i : Int} {x : α} (y : α)
    (h : lookup xs i = some x) : lookup (xs.set i.toNat y) i = some y := by
  obtain ⟨hi, hx⟩ := lookup_eq_some.mp h
  exact lookup_eq_some.mpr ⟨hi, List.getElem?_set_self (List.getElem?_eq_some_iff.mp hx).1⟩

theorem lookup_set_of_ne {α : Type} {xs : List α} {i j : Int} (y : α) (hi : 0 ≤ i) (h : j ≠ i) :
    lookup (xs.set i.toNat y) j = lookup xs j := by
  unfold lookup
  split
  · rfl
  · next hj => exact List.getElem?_set_ne (by omega)

namespace State

theorem foldl_scheduled (us : List Use) (s : State) :
    ∃ ready pending, us.foldl scheduled s = { s with ready, pending } := by
  induction us generalizing s with
  | nil => exact ⟨s.ready, s.pending, rfl⟩
  | cons u us ih =>
    obtain ⟨ready, pending, h⟩ := ih (s.scheduled u)
    refine ⟨ready, pending, ?_⟩
    rw [List.foldl_cons, h]
    unfold scheduled
    split <;> rfl

theorem isReachable_scheduled (s : State) (u : Use) (b : BlockId) :
    (s.scheduled u).isReachable b = s.isReachable b := by
  unfold scheduled
  split <;> rfl

theorem mem_ready_scheduled {s : State} (hq : s.Queued) (u : Use) (id : ValueId) :
    id ∈ (s.scheduled u).ready.toList ↔
      id ∈ s.ready.toList ∨ u.user = id ∧ s.isReachable u.block = true := by
  unfold scheduled
  split
  · next h =>
    simp only [Bool.and_eq_true] at h
    simp [h.1, eq_comm]
  · next h =>
    refine ⟨Or.inl, fun hid => hid.elim (fun hm => hm) ?_⟩
    rintro ⟨rfl, hr⟩
    rw [← hq.pending_iff]
    simpa [hr] using h

theorem Queued.scheduled {s : State} (hq : s.Queued) (u : Use) : (s.scheduled u).Queued := by
  unfold State.scheduled
  split
  · next h =>
    simp only [Bool.and_eq_true, Bool.not_eq_true'] at h
    have hnew : u.user ∉ s.ready.toList := by
      rw [← hq.pending_iff]
      simp [h.2]
    constructor
    · intro id
      simp [hq.pending_iff, or_comm]
    · simpa [List.nodup_append] using ⟨hq.nodup, fun a ha he => hnew (he ▸ ha)⟩
  · exact hq

theorem Queued.stored {s : State} (hq : s.Queued) (v : Value) (name : Text) (old new : Fact) :
    ((s.evaluated v).stored v.id name old new).Queued :=
  ⟨hq.pending_iff, hq.nodup⟩

theorem Queued.foldl_scheduled {s : State} (hq : s.Queued) (us : List Use) :
    (us.foldl State.scheduled s).Queued := by
  induction us generalizing s with
  | nil => exact hq
  | cons u us ih => exact ih (hq.scheduled u)

theorem mem_ready_foldl_scheduled {s : State} (hq : s.Queued) (us : List Use) (id : ValueId) :
    id ∈ (us.foldl scheduled s).ready.toList ↔
      id ∈ s.ready.toList ∨ ∃ u ∈ us, u.user = id ∧ s.isReachable u.block = true := by
  induction us generalizing s with
  | nil => simp
  | cons u us ih =>
    rw [List.foldl_cons, ih (hq.scheduled u), mem_ready_scheduled hq]
    simp [isReachable_scheduled, or_assoc]

end State

namespace Task

variable {t : Task}

structure Effect (v : Value) (s s' : State) : Prop where
  self : s'.fact? v.id = s.valueFact? v
  other : ∀ {id}, id ≠ v.id → s'.fact? id = s.fact? id
  facts_length : s'.facts.length = s.facts.length
  visited : s'.visited = s.visited
  reachable : s'.reachable = s.reachable
  edges : s'.edges.toList = s.edges.toList ++ v.jumps

theorem Effect.isReachable_eq {v : Value} {s s' : State} (h : Effect v s s') (b : BlockId) :
    s'.isReachable b = s.isReachable b := by
  simp only [Solution.isReachable, h.reachable]

theorem Effect.isVisited_eq {v : Value} {s s' : State} (h : Effect v s s') (e : Edge) :
    s'.isVisited e = s.isVisited e := by
  simp only [Solution.isVisited, h.visited]

theorem Evaluates.effect {v : Value} {s s' : State} (h : t.Evaluates v s s') : Effect v s s' := by
  cases h with
  | same hr hf hold =>
    exact ⟨hold.trans hf.symm, fun _ => rfl, rfl, rfl, rfl, Queue.toList_pushAll _ _⟩
  | @change old new name hr hf hold hne hle =>
    obtain ⟨ready, pending, he⟩ :=
      State.foldl_scheduled v.uses ((s.evaluated v).stored v.id name old new)
    rw [he]
    exact
      { self := (lookup_set_self new hold).trans hf.symm
        other := fun hid => lookup_set_of_ne new (lookup_bounds hold).1 hid
        facts_length := List.length_set
        visited := rfl
        reachable := rfl
        edges := Queue.toList_pushAll _ _ }

theorem Evaluates.exists_valueFact {v : Value} {s s' : State} (h : t.Evaluates v s s') :
    ∃ f, s.valueFact? v = some f := by
  cases h with
  | same _ hf => exact ⟨_, hf⟩
  | change _ hf => exact ⟨_, hf⟩

theorem Evaluates.assignment_self {v : Value} {s s' : State} {f : Fact} (h : t.Evaluates v s s')
    (hf : s.valueFact? v = some f) : s'.assignment v.id = f :=
  Solution.assignment_eq_of_fact? (h.effect.self.trans hf)

theorem Evaluates.assignment_other {v : Value} {s s' : State} {id : ValueId}
    (h : t.Evaluates v s s') (hid : id ≠ v.id) : s'.assignment id = s.assignment id := by
  simp only [Solution.assignment, h.effect.other hid]

theorem Evaluates.assignment_cases {v : Value} {s s' : State} (h : t.Evaluates v s s')
    (id : ValueId) : id = v.id ∧ s.valueFact? v = some (s'.assignment id) ∨
      id ≠ v.id ∧ s'.assignment id = s.assignment id := by
  by_cases hid : id = v.id
  · obtain ⟨f, hf⟩ := h.exists_valueFact
    rw [hid, h.assignment_self hf]
    exact Or.inl ⟨rfl, hf⟩
  · exact Or.inr ⟨hid, h.assignment_other hid⟩

theorem Evaluates.rejects_eq {v : Value} {s s' : State} (h : t.Evaluates v s s') :
    t.rejects v = false := by
  cases h with
  | same hr => exact hr
  | change hr => exact hr

theorem Evaluates.queued {v : Value} {s s' : State} (h : t.Evaluates v s s') (hq : s.Queued) :
    s'.Queued := by
  cases h with
  | same hr hf hold => exact ⟨hq.pending_iff, hq.nodup⟩
  | @change old new name hr hf hold hne hle =>
    exact (hq.stored v name old new).foldl_scheduled v.uses

theorem Evaluates.mem_ready {v : Value} {s s' : State} (h : t.Evaluates v s s') (hq : s.Queued)
    (id : ValueId) : id ∈ s'.ready.toList ↔ id ∈ s.ready.toList ∨
      s'.fact? v.id ≠ s.fact? v.id ∧ ∃ u ∈ v.uses, u.user = id ∧ s.isReachable u.block = true := by
  have heffect := h.effect
  cases h with
  | same hr hf hold =>
    refine ⟨Or.inl, fun hid => hid.elim (fun hm => hm) ?_⟩
    rintro ⟨hne, -⟩
    exact absurd rfl hne
  | @change old new name hr hf hold hne hle =>
    have hnew : some new ≠ s.fact? v.id := by
      rw [hold]
      exact fun he => hne (Option.some.inj he).symm
    rw [State.mem_ready_foldl_scheduled (hq.stored v name old new), heffect.self, hf]
    simp only [ne_eq, hnew, not_false_iff, true_and]
    rfl

theorem Evaluates.records {v : Value} {s s' : State} (he : t.Evaluates v s s') :
    s.Records v.id s' := by
  cases he with
  | same hr hf hold => exact ⟨[.eval v.id], rfl, by simp⟩
  | @change old new name hr hf hold hne hle =>
    obtain ⟨ready, pending, heq⟩ :=
      State.foldl_scheduled v.uses ((s.evaluated v).stored v.id name old new)
    rw [heq]
    exact ⟨[.update v.id name old new, .eval v.id], rfl, by simp⟩

theorem Breaks.records {v : Value} {f : Failure} {s s' : State} (hb : t.Breaks v s f s') :
    s.Records v.id s' := by
  cases hb with
  | evalUnseen hw => exact ⟨[.eval v.id], rfl, by simp⟩
  | unhandled hr htarget hname => exact ⟨[.eval v.id], rfl, by simp⟩
  | ascent hf hold hcheck hnle => exact ⟨[.eval v.id], rfl, by simp⟩
  | @updateUnseen old new name hf hold hne hle hw =>
    exact ⟨[.update v.id name old new, .eval v.id], rfl, by simp⟩

end Task

end TypeFlow
