import Mathlib.Logic.Relation
import TypeFlow.Proofs.Unchecked

/-! The queues of a run and what waits for a block. A value is queued or evaluated only once its
block is reachable, until then nothing is known about it, and an instruction gets its fact when its
block is entered and keeps it. -/

namespace TypeFlow

namespace Task

variable {t : Task}

/-- A run goes on from one state to the other. -/
abbrev Continues (t : Task) : State → State → Prop :=
  Relation.ReflTransGen fun s s' => t.Turn s (.ok () s')

/-- A run that is in `s` is in `s'` then or later, or ends there. -/
inductive Later (t : Task) (s s' : State) : Prop
  | reached (h : t.Continues s s')
  | failed {last : State} {f : Failure} (h : t.Continues s last) (hturn : t.Turn last (.error f s'))
  | ended {last : State} (h : t.Continues s last)
      (hdone : t.emit (.done last.stats) last = .ok () s')

/-- The queue of values and its set agree, what is queued or was evaluated lives in reachable
blocks, and the instructions of these have their facts for good. -/
structure Gated (t : Task) (s : State) : Prop where
  pending_iff : ∀ id, s.pending.contains id = true ↔ id ∈ s.ready.toList
  ready_nodup : s.ready.toList.Nodup
  reachable : ∀ id, id ∈ s.ready.toList ∨ .eval id ∈ s.journal →
    ∃ v, t.func.value? id = some v ∧ s.isReachable v.block = true
  unknown : ∀ id v, t.func.value? id = some v → s.isReachable v.block = false →
    s.fact? id = some Fact.top
  final : ∀ id v, t.func.value? id = some v → v.isPhi = false → s.isReachable v.block = true →
    ∃ f, f ≠ Fact.top ∧ s.fact? id = some f ∧ ∀ s', t.Later s s' → s'.fact? id = some f

theorem Continues.reaches {n : Nat} {s s' : State} (hs : t.Reaches n s) (h : t.Continues s s') :
    ∃ m, t.Reaches m s' := by
  induction h with
  | refl => exact ⟨n, hs⟩
  | tail _ hturn ih =>
    obtain ⟨m, hm⟩ := ih
    exact ⟨m + 1, hm.turn hturn⟩

theorem trail_reaches {m n : Nat} {phase phase' : Phase} {s s' : State} (hs : t.Reaches n s)
    (h : t.trail m phase s = some (phase', s')) : ∃ k, t.Reaches k s' := by
  induction m generalizing n phase s with
  | zero =>
    obtain ⟨rfl, rfl⟩ := Prod.mk.inj (Option.some.inj h)
    exact ⟨n, hs⟩
  | succ m ih =>
    obtain ⟨phase₁, s₁, hstep, htrail⟩ := trail_succ h
    rcases (step_meets hs phase).of_ok hstep with ⟨-, hturn⟩ | ⟨-, rfl, -⟩
    · exact ih hturn htrail
    · exact ih hs htrail

/-- Only values of reachable blocks were evaluated. -/
def Awake (t : Task) (s : State) : Prop :=
  ∀ ⦃id⦄, .eval id ∈ s.journal → ∃ v, t.func.value? id = some v ∧ s.isReachable v.block = true

theorem Evaluates.awake (wf : t.func.WellFormed) {id : ValueId} {v : Value} {s s' : State}
    (he : t.Evaluates v s s') (hv : t.func.value? id = some v)
    (hr : s.isReachable v.block = true) (h : t.Awake s) : t.Awake s' := by
  intro x hx
  simp only [he.effect.isReachable_eq]
  obtain ⟨new, hj, hnew⟩ := he.records
  rw [hj, List.mem_append] at hx
  rcases hx with hx | hx
  · rcases hnew _ hx with heq | ⟨name, old, f, heq⟩
    · obtain rfl : x = v.id := Event.eval.inj heq
      exact ⟨v, by rw [wf.value_id hv, hv], hr⟩
    · cases heq
  · exact h hx

theorem Midway.awake (wf : t.func.WellFormed) {n : Nat} {todo : List ValueId} {s : State}
    (h : t.Midway n todo s) : t.Awake s := by
  induction h with
  | begin h =>
    obtain rfl := begin_eq h
    intro id hid
    simp at hid
  | skip hm hq hv ih => exact ih
  | @enter n s e rest b hm hq hv hb ih =>
    intro id hid
    have hbefore : .eval id ∈ s.journal := by simpa [State.entered] using hid
    obtain ⟨v, hval, hr⟩ := ih hbefore
    exact ⟨v, hval, (State.isReachable_entered _ _ _).mpr (Or.inr hr)⟩
  | visit hm hv he ih => exact he.awake wf hv ((hm.coherent wf).todo_reachable hv) ih
  | @revisit n id rest v s s' hm hq hv he ih =>
    have htaken : t.Awake (s.taken id rest) := ih
    exact he.awake wf hv ((hm.coherent wf).ready_reachable hq hv).1 htaken

section Instruction

variable {id : ValueId} {v : Value}

/-- Evaluating any value leaves an instruction with the fact of its opcode or gives it this fact. -/
theorem Evaluates.fact_of_instr (wf : t.func.WellFormed) {x : ValueId} {w : Value} {s s' : State}
    (he : t.Evaluates w s s') (hw : t.func.value? x = some w) (hv : t.func.value? id = some v)
    (hp : v.isPhi = false) (h : id = x ∨ s.fact? id = some v.op.fact) :
    s'.fact? id = some v.op.fact := by
  by_cases hid : id = x
  · subst hid
    obtain rfl : v = w := Option.some.inj (hv.symm.trans hw)
    rw [← Solution.valueFact?_of_not_isPhi hp, ← he.effect.self, wf.value_id hv]
  · rw [he.effect.other (by rwa [wf.value_id hw])]
    exact h.resolve_left hid

theorem Breaks.fact_of_instr (wf : t.func.WellFormed) {x : ValueId} {w : Value} {f : Failure}
    {s s' : State} (hb : t.Breaks w s f s') (hw : t.func.value? x = some w)
    (hv : t.func.value? id = some v) (hp : v.isPhi = false) (h : s.fact? id = some v.op.fact) :
    s'.fact? id = some v.op.fact := by
  cases hb with
  | evalUnseen hw => exact h
  | unhandled hr htarget hname => exact h
  | ascent hf hold hcheck hnle => exact h
  | @updateUnseen old new name hf hold hne hle hunseen =>
    change lookup (s.facts.set w.id.toNat new) id = _
    by_cases hid : id = w.id
    · obtain rfl : v = w := Option.some.inj (hv.symm.trans (hid.trans (wf.value_id hw) ▸ hw))
      rw [Solution.valueFact?_of_not_isPhi hp] at hf
      rw [hid, lookup_set_self new hold, ← hf]
    · rw [lookup_set_of_ne new (lookup_bounds hold).1 hid]
      exact h

/-- An instruction that was evaluated when its block was entered has the fact of its opcode. -/
theorem Midway.fact_of_instr (wf : t.func.WellFormed) {n : Nat} {todo : List ValueId} {s : State}
    (h : t.Midway n todo s) (hv : t.func.value? id = some v) (hp : v.isPhi = false)
    (hr : s.isReachable v.block = true) (htodo : id ∉ todo) : s.fact? id = some v.op.fact :=
  h.since_evaluated wf hv (fun _ _ _ hf => hf) (fun _ hf => hf)
    (fun hw he hf => he.fact_of_instr wf hw hv hp (hf.imp_left Eq.symm)) hr htodo

/-- No turn changes the fact of an instruction that has the fact of its opcode, be it that the turn
fails. -/
theorem Turn.fact_of_instr (wf : t.func.WellFormed) {n : Nat} {s : State} (hm : t.Midway n [] s)
    {r : EStateM.Result Failure State Unit} (h : t.Turn s r) (hv : t.func.value? id = some v)
    (hp : v.isPhi = false) (hf : s.fact? id = some v.op.fact) :
    (∀ s', r = .ok () s' → s'.fact? id = some v.op.fact) ∧
      ∀ f s', r = .error f s' → s'.fact? id = some v.op.fact := by
  have hc := hm.coherent wf
  cases h with
  | @edge e rest hq =>
    obtain ⟨b, hb⟩ := hc.edge_block e (hq.mem_iff.mpr (Or.inl rfl))
    have hpasses : t.Passes
        (fun _ s => s.facts.length = t.func.values.length ∧ s.fact? id = some v.op.fact)
        (fun _ s => s.fact? id = some v.op.fact) :=
      ⟨And.left, fun hs hw he => ⟨he.effect.facts_length.trans hs.1,
          he.fact_of_instr wf hw hv hp (Or.inr hs.2)⟩,
        fun hs hw hbreak => hbreak.fact_of_instr wf hw hv hp hs.2⟩
    have hmeets := hpasses.visitEdge wf (s := { s with edges := rest }) hb
      (fun _ => ⟨hc.facts_length, hf⟩) (fun _ => ⟨hc.facts_length, hf⟩) (fun _ _ => hf)
    exact ⟨fun _ hr => (hmeets.of_ok hr).2, fun _ _ hr => hmeets.of_error hr⟩
  | @value x rest hq =>
    obtain ⟨w, hw, -⟩ := hc.ready_value x (hq.mem_iff.mpr (Or.inl rfl))
    have hmeets := visitValue_meets wf (hc.taken hq).facts_length hw
    exact ⟨fun _ hr => (hmeets.of_ok hr).fact_of_instr wf hw hv hp (Or.inr hf),
      fun _ _ hr => (hmeets.of_error hr).fact_of_instr wf hw hv hp hf⟩

theorem Later.fact_of_instr (wf : t.func.WellFormed) {n : Nat} {s s' : State} (hs : t.Reaches n s)
    (h : t.Later s s') (hv : t.func.value? id = some v) (hp : v.isPhi = false)
    (hf : s.fact? id = some v.op.fact) : s'.fact? id = some v.op.fact := by
  have hreached : ∀ {last}, t.Continues s last → last.fact? id = some v.op.fact := by
    intro last hlast
    induction hlast with
    | refl => exact hf
    | tail hmid hturn ih =>
      obtain ⟨m, hm⟩ := Continues.reaches hs hmid
      exact (hturn.fact_of_instr wf (hm.midway wf) hv hp ih).1 _ rfl
  cases h with
  | reached h => exact hreached h
  | failed h hturn =>
    obtain ⟨m, hm⟩ := Continues.reaches hs h
    exact (hturn.fact_of_instr wf (hm.midway wf) hv hp (hreached h)).2 _ _ rfl
  | @ended last h hdone =>
    have hmeets : Meets (t.emit (.done last.stats)) last (fun _ s' => s'.facts = last.facts)
        (fun _ _ => True) := by
      rw [meets_emit]
      split_ifs
      rfl
    rw [Solution.fact?, hmeets.of_ok hdone]
    exact hreached h

end Instruction

theorem Reaches.gated (wf : t.func.WellFormed) {n : Nat} {s : State} (h : t.Reaches n s) :
    t.Gated s := by
  have hm := h.midway wf
  have hc := hm.coherent wf
  refine ⟨fun id => hc.queued.pending_iff, hc.queued.nodup, fun id hid => ?_,
    fun id v hv hr => (hm.settled wf).untouched hv hr, fun id v hv hp hr => ?_⟩
  · rcases hid with hid | hid
    · obtain ⟨v, hv, hr, -⟩ := hc.ready_value id hid
      exact ⟨v, hv, hr⟩
    · exact hm.awake wf hid
  · have hf := hm.fact_of_instr wf hv hp hr List.not_mem_nil
    exact ⟨_, v.op.fact_ne_top, hf, fun s' hs' => hs'.fact_of_instr wf h hv hp hf⟩

/-- Between two turns of any run, and at every step of the main loop, the queue of values and its
set agree, only values of reachable blocks are queued or were evaluated, nothing is known about the
values of other blocks, and the instructions of reachable blocks have their facts for good. -/
theorem evaluation_gated (hfn : t.func.Accepted) :
    (∀ n s, t.Reaches n s → t.Gated s) ∧
    ∀ s m phase s', t.begin (.initial t.func) = .ok () s →
      t.trail m .edges s = some (phase, s') → t.Gated s' := by
  have wf := hfn.wellFormed
  refine ⟨fun n s h => h.gated wf, fun s m phase s' hbegin htrail => ?_⟩
  obtain ⟨k, hk⟩ := trail_reaches (.begin hbegin) htrail
  exact hk.gated wf

/-- When the loop has been entered twice all of its values wait, and the exit is not reachable yet.
The sum in the loop is an integer from then on. -/
theorem evaluation_gated_counting :
    let s := (counting.analyze 3).state
    counting.func.Accepted ∧ (∃ n, counting.Reaches n s) ∧ counting.Gated s ∧
      s.ready.toList = [1, 4, 3, 2] ∧ s.isReachable 2 = false ∧ s.fact? 5 = some Fact.top ∧
      ∀ s', counting.Later s s' → s'.fact? 3 = some (Fact.ofType .i32) := by
  intro s
  obtain ⟨start, hbegin⟩ : ∃ start, counting.begin (.initial .counting) = .ok () start := ⟨_, rfl⟩
  have htrail : counting.trail 3 .edges start = some (.edges, s) := by
    obtain rfl := begin_eq hbegin
    decide +kernel
  obtain ⟨-, hloop⟩ := evaluation_gated (t := counting) Func.counting_accepted
  have hs := hloop start 3 .edges s hbegin htrail
  let sum : Value :=
    { id := 3, block := 1, op := .addI32, args := [.value 2, .value 2], uses := [⟨2, 1⟩] }
  obtain ⟨f, -, hf, hlater⟩ := hs.final 3 sum (by decide +kernel) rfl (by decide +kernel)
  have hsum : s.fact? 3 = some (Fact.ofType .i32) := by decide +kernel
  exact ⟨Func.counting_accepted, trail_reaches (.begin hbegin) htrail, hs, by decide +kernel,
    by decide +kernel, by decide +kernel, fun s' hs' => (hlater s' hs').trans (hf.symm.trans hsum)⟩

end Task

end TypeFlow
