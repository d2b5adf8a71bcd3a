import TypeFlow.Proofs.Midway

/-! Runs in which no stored fact rises. The journal of a run accounts for every store, so it shows
whether all of them were descents. -/

namespace TypeFlow

namespace Event

/-- The facts that the updates of a journal, the latest first, lead to. -/
def replay : List Event → ValueId → Fact
  | [], _ => Fact.top
  | .update x _ _ new :: earlier, id => if id = x then new else replay earlier id
  | _ :: earlier, id => replay earlier id

/-- Every update of a journal, the latest first, replaces the fact that was there by one below. -/
def Descending : List Event → Prop
  | [] => True
  | .update x _ old new :: earlier =>
    old = replay earlier x ∧ Fact.lattice.descends old new = .ok true ∧ Descending earlier
  | _ :: earlier => Descending earlier

end Event

namespace State

structure Recorded (s : State) : Prop where
  facts_eq : s.assignment = Event.replay s.journal
  descending : Event.Descending s.journal

theorem recorded_initial (fn : Func) : (initial fn).Recorded := by
  refine ⟨funext fun id => ?_, trivial⟩
  change (lookup (fn.values.map fun _ => Fact.top) id).getD Fact.top = Fact.top
  rw [lookup_map]
  cases lookup fn.values id <;> rfl

theorem assignment_stored {s : State} {id : ValueId} {name : Text} {old new : Fact}
    (hold : s.fact? id = some old) (x : ValueId) :
    (s.stored id name old new).assignment x = if x = id then new else s.assignment x := by
  change (lookup (s.facts.set id.toNat new) x).getD Fact.top = _
  split_ifs with hx
  · rw [hx, lookup_set_self new hold]
    rfl
  · rw [lookup_set_of_ne new (lookup_bounds hold).1 hx]
    rfl

theorem Recorded.stored {s : State} (h : s.Recorded) {v : Value} {name : Text} {old new : Fact}
    (hold : s.fact? v.id = some old) (hle : new ≤ old) :
    ((s.evaluated v).stored v.id name old new).Recorded := by
  refine ⟨funext fun id => ?_, ?_, ?_, h.descending⟩
  · have hfacts : (s.evaluated v).assignment = Event.replay s.journal := h.facts_eq
    rw [assignment_stored (s := s.evaluated v) hold, hfacts]
    rfl
  · exact (Solution.assignment_eq_of_fact? hold).symm.trans (congrFun h.facts_eq v.id)
  · rw [Fact.descends_eq, decide_eq_true hle]

end State

namespace Task

variable {t : Task}

/-- Whatever is evaluated next, its fact does not rise. -/
def Sinks (t : Task) (s : State) : Prop :=
  ∀ ⦃id v f⦄, t.func.value? id = some v → s.valueFact? v = some f → f ≤ s.assignment id

/-- No fact rises next, be it because the run would fail. -/
def Falls (t : Task) (s : State) : Prop := t.options.checkMonotonic = true ∨ t.Sinks s

/-- Some run is in `s` between two turns, or ends there. -/
def Occurs (t : Task) (s : State) : Prop :=
  (∃ n, t.Reaches n s) ∨ t.Returns s ∨ ∃ f, t.Aborts f s

theorem Falls.le (wf : t.func.WellFormed) {s : State} (h : t.Falls s) {id : ValueId} {v : Value}
    {old new : Fact} (hv : t.func.value? id = some v) (hf : s.valueFact? v = some new)
    (hold : s.fact? v.id = some old) (hle : t.options.checkMonotonic = true → new ≤ old) :
    new ≤ old := by
  rcases h with hcheck | hsinks
  · exact hle hcheck
  · rw [← Solution.assignment_eq_of_fact? hold, wf.value_id hv]
    exact hsinks hv hf

theorem Evaluates.assignment_le (wf : t.func.WellFormed) {id : ValueId} {v : Value} {s s' : State}
    (he : t.Evaluates v s s') (hv : t.func.value? id = some v) (hfalls : t.Falls s) (x : ValueId) :
    s'.assignment x ≤ s.assignment x := by
  rcases he.assignment_cases x with ⟨rfl, hx⟩ | ⟨-, hx⟩
  swap
  · exact le_of_eq hx
  cases he with
  | same hr hf hold => exact le_rfl
  | change hr hf hold hne hle =>
    rw [Option.some.inj (hx.symm.trans hf), Solution.assignment_eq_of_fact? hold]
    exact hfalls.le wf hv hf hold hle

theorem Evaluates.recorded (wf : t.func.WellFormed) {id : ValueId} {v : Value} {s s' : State}
    (he : t.Evaluates v s s') (hv : t.func.value? id = some v) (hfalls : t.Falls s)
    (h : s.Recorded) : s'.Recorded := by
  cases he with
  | same hr hf hold => exact ⟨h.facts_eq, h.descending⟩
  | @change old new name hr hf hold hne hle =>
    obtain ⟨ready, pending, heq⟩ :=
      State.foldl_scheduled v.uses ((s.evaluated v).stored v.id name old new)
    rw [heq]
    obtain ⟨hfacts, hdesc⟩ := h.stored (v := v) hold (hfalls.le wf hv hf hold hle)
    exact ⟨hfacts, hdesc⟩

theorem Breaks.recorded (wf : t.func.WellFormed) {id : ValueId} {v : Value} {s s' : State}
    {f : Failure} (hb : t.Breaks v s f s') (hv : t.func.value? id = some v) (hfalls : t.Falls s)
    (h : s.Recorded) : s'.Recorded := by
  cases hb with
  | evalUnseen hw => exact ⟨h.facts_eq, h.descending⟩
  | unhandled hr htarget hname => exact ⟨h.facts_eq, h.descending⟩
  | ascent hf hold hcheck hnle => exact ⟨h.facts_eq, h.descending⟩
  | updateUnseen hf hold hne hle hw => exact h.stored hold (hfalls.le wf hv hf hold hle)

/-- What `P` says of a state does not depend on its queues, and it is kept by whatever a run does
while no fact rises. -/
structure Steady (t : Task) (P : State → Prop) : Prop where
  begin : ∀ {s}, t.begin (.initial t.func) = .ok () s → P s
  queues : ∀ {s : State} edges ready pending, P s →
    P { s with edges := edges, ready := ready, pending := pending }
  entered : ∀ {s : State} e, P s → P (s.entered e)
  evaluates : ∀ {id v s s'}, t.func.value? id = some v → t.Falls s → t.Evaluates v s s' → P s → P s'

theorem Midway.steady {P : State → Prop} (h : t.Steady P)
    (hfalls : ∀ {n todo s}, t.Midway n todo s → t.Falls s) {n : Nat} {todo : List ValueId}
    {s : State} (hm : t.Midway n todo s) : P s := by
  induction hm with
  | begin hb => exact h.begin hb
  | skip hm hq hv ih => exact h.queues _ _ _ ih
  | enter hm hq hv hb ih => exact h.entered _ (h.queues _ _ _ ih)
  | visit hm hv he ih => exact h.queues _ _ _ (h.evaluates hv (hfalls hm) he ih)
  | @revisit n id rest v s s' hm hq hv he ih =>
    have hf : t.Falls s := hfalls hm
    exact h.evaluates (s := s.taken id rest) hv hf he (h.queues _ _ _ ih)

theorem Stops.steady {P : State → Prop} (h : t.Steady P)
    (hbreaks : ∀ {id v f s s'}, t.func.value? id = some v → t.Falls s → t.Breaks v s f s' → P s →
      P s')
    (hfalls : ∀ {n todo s}, t.Midway n todo s → t.Falls s) {n : Nat} {f : Failure} {s : State}
    (hs : t.Stops n f s) : P s := by
  cases hs with
  | enter hm hq hv hw => exact h.entered _ (h.queues _ _ _ (hm.steady h hfalls))
  | visit hm hv hb => exact hbreaks hv (hfalls hm) hb (hm.steady h hfalls)
  | @revisit n id rest v f s s' hm hq hv hb =>
    have hf : t.Falls s := hfalls hm
    exact hbreaks (s := s.taken id rest) hv hf hb (h.queues _ _ _ (hm.steady h hfalls))

theorem steady_recorded (wf : t.func.WellFormed) : t.Steady State.Recorded where
  begin hb := by
    obtain rfl := begin_eq hb
    obtain ⟨hfacts, hdesc⟩ := State.recorded_initial t.func
    exact ⟨hfacts, hdesc⟩
  queues _ _ _ h := ⟨h.facts_eq, h.descending⟩
  entered _ h := ⟨h.facts_eq, h.descending⟩
  evaluates hv hfalls he h := he.recorded wf hv hfalls h

theorem Aborts.stops (wf : t.func.WellFormed) {f : Failure} {s : State} (h : t.Aborts f s) :
    (∃ n, t.Stops n f s) ∨ f = .unobserved ∧ ∃ event last,
      t.options.watch event = false ∧ s = { last with journal := event :: last.journal } ∧
      (event = .start t.func.blocks.length t.func.values.length ∧ last = .initial t.func ∨
        event = .done last.stats ∧ ∃ n, t.Midway n [] last) := by
  have hemit : ∀ {event : Event} {last : State}, Meets (t.emit event) last (fun _ _ => True)
      (fun f s => f = .unobserved ∧ t.options.watch event = false ∧
        s = { last with journal := event :: last.journal }) := by
    intro event last
    rw [meets_emit]
    cases hw : t.options.watch event
    · exact ⟨rfl, rfl, rfl⟩
    · trivial
  cases h with
  | begin h =>
    have hm : Meets t.begin (.initial t.func) (fun _ _ => True) _ :=
      (meets_bind.mpr (hemit.mono (fun _ _ _ => trivial) (fun _ _ h => h)))
    obtain ⟨hf, hw, hs⟩ := hm.of_error h
    exact Or.inr ⟨hf, _, _, hw, hs, Or.inl ⟨rfl, rfl⟩⟩
  | @turn n f s s' hs hturn => exact Or.inl ⟨n + 1, (hturn.meets wf (hs.midway wf)).2 _ _ rfl⟩
  | @done n f s s' hs he hr h =>
    obtain ⟨hf, hw, hs'⟩ := hemit.of_error h
    exact Or.inr ⟨hf, _, _, hw, hs', Or.inr ⟨rfl, n, hs.midway wf⟩⟩

/-- What holds inside every run and where a turn fails holds wherever a run is or ends, if it does
not depend on whether the start and the end are recorded. -/
theorem Occurs.of_midway (wf : t.func.WellFormed) {P : State → Prop}
    (hinitial : P (.initial t.func))
    (hstart : ∀ s blocks values, P s → P { s with journal := .start blocks values :: s.journal })
    (hdone : ∀ s stats, P s → P { s with journal := .done stats :: s.journal })
    (hmidway : ∀ {n todo s}, t.Midway n todo s → P s) (hstops : ∀ {n f s}, t.Stops n f s → P s)
    {s : State} (h : t.Occurs s) : P s := by
  rcases h with ⟨n, h⟩ | h | ⟨f, h⟩
  · exact hmidway (h.midway wf)
  · obtain ⟨n, last, hlast, -, -, rfl⟩ := h.midway wf
    exact hdone _ _ (hmidway hlast)
  · rcases h.stops wf with ⟨n, h⟩ | ⟨-, event, last, -, rfl, ⟨rfl, rfl⟩ | ⟨rfl, n, hlast⟩⟩
    · exact hstops h
    · exact hstart _ _ _ hinitial
    · exact hdone _ _ (hmidway hlast)

theorem Occurs.recorded (wf : t.func.WellFormed)
    (hfalls : ∀ {n todo s}, t.Midway n todo s → t.Falls s) {s : State} (h : t.Occurs s) :
    s.Recorded := by
  have hsteady := steady_recorded wf
  refine h.of_midway wf (State.recorded_initial t.func)
    (fun _ _ _ hs => ⟨hs.facts_eq, hs.descending⟩) (fun _ _ hs => ⟨hs.facts_eq, hs.descending⟩)
    (·.steady hsteady hfalls) (·.steady hsteady ?_ hfalls)
  exact fun hv hf hb hs => hb.recorded wf hv hf hs

/-- The failures that a run is meant to have: an opcode of the target has no rule, a fact that is
checked rises, or the event recorded last is refused by what watches the run. -/
inductive Deliberate (t : Task) : Failure → State → Prop
  | unhandled {function value : Text} {op : Opcode} {target : Text} {s : State} :
    t.Deliberate (.unhandled function value op target) s
  | ascent {what : Text} {old new meet : Fact} {s : State}
    (hcheck : t.options.checkMonotonic = true) :
    t.Deliberate (.lattice (.ascent what old new meet)) s
  | refused {event : Event} {earlier : List Event} {s : State}
    (hj : s.journal = event :: earlier) (hw : t.options.watch event = false) :
    t.Deliberate .unobserved s

theorem Breaks.deliberate {v : Value} {f : Failure} {s s' : State} (hb : t.Breaks v s f s') :
    t.Deliberate f s' := by
  cases hb with
  | evalUnseen hw => exact .refused rfl hw
  | unhandled hr htarget hname => exact .unhandled
  | ascent hf hold hcheck hnle hname hfault =>
    rw [Fact.eq_ascent_of_checkDescent hfault]
    exact .ascent hcheck
  | updateUnseen hf hold hne hle hw => exact .refused rfl hw

theorem Stops.deliberate {n : Nat} {f : Failure} {s : State} (h : t.Stops n f s) :
    t.Deliberate f s := by
  cases h with
  | enter hm hq hv hw => exact .refused rfl hw
  | visit hm hv hb => exact hb.deliberate
  | revisit hm hq hv hb => exact hb.deliberate

theorem Aborts.deliberate (wf : t.func.WellFormed) {f : Failure} {s : State} (h : t.Aborts f s) :
    t.Deliberate f s := by
  rcases h.stops wf with ⟨n, h⟩ | ⟨rfl, event, last, hw, rfl, -⟩
  · exact h.deliberate
  · exact .refused rfl hw

/-- A run fails at an opcode without a rule, at a fact that rises if facts are checked, or at an
event that is not accepted. -/
inductive Risks (t : Task) : Failure → Prop
  | unhandled {function value : Text} {op : Opcode} {target : Text} :
    t.Risks (.unhandled function value op target)
  | ascent {fault : Lattice.Fault Fact} (hcheck : t.options.checkMonotonic = true) :
    t.Risks (.lattice fault)
  | unseen {event : Event} (hw : t.options.watch event = false) : t.Risks .unobserved

theorem Deliberate.risks {f : Failure} {s : State} (h : t.Deliberate f s) : t.Risks f := by
  cases h with
  | unhandled => exact .unhandled
  | ascent hcheck => exact .ascent hcheck
  | refused hj hw => exact .unseen hw

theorem Stops.risks {n : Nat} {f : Failure} {s : State} (h : t.Stops n f s) : t.Risks f :=
  h.deliberate.risks

theorem Aborts.risks (wf : t.func.WellFormed) {f : Failure} {s : State} (h : t.Aborts f s) :
    t.Risks f :=
  (h.deliberate wf).risks

theorem Breaks.not_lattice (wf : t.func.WellFormed) {id : ValueId} {v : Value} {s s' : State}
    {fault : Lattice.Fault Fact} (hb : t.Breaks v s (.lattice fault) s')
    (hv : t.func.value? id = some v) : ¬ t.Sinks s := by
  intro hsinks
  cases hb with
  | ascent hf hold hcheck hnle =>
    refine absurd (hsinks hv hf) ?_
    rwa [← wf.value_id hv, Solution.assignment_eq_of_fact? hold]

theorem Aborts.not_lattice (wf : t.func.WellFormed)
    (hsinks : ∀ {n todo s}, t.Midway n todo s → t.Sinks s) {fault : Lattice.Fault Fact}
    {s : State} :
    ¬ t.Aborts (.lattice fault) s := by
  intro h
  rcases h.stops wf with ⟨n, h⟩ | ⟨hf, -⟩
  · cases h with
    | visit hm hv hb => exact hb.not_lattice wf hv (hsinks hm)
    | revisit hm hq hv hb =>
      have hs := hsinks hm
      exact hb.not_lattice wf hv hs
  · cases hf

/-- Where no fact would rise, only an opcode without a rule and an event that is not accepted are
left as failures. -/
theorem Aborts.failure_cases (wf : t.func.WellFormed)
    (hsinks : ∀ {n todo s}, t.Midway n todo s → t.Sinks s) {f : Failure} {s : State}
    (h : t.Aborts f s) :
    (∃ function value op target, f = .unhandled function value op target) ∨
      f = .unobserved ∧ ∃ event, t.options.watch event = false := by
  cases h.risks wf with
  | unhandled => exact Or.inl ⟨_, _, _, _, rfl⟩
  | ascent hcheck => exact absurd h (Aborts.not_lattice wf hsinks)
  | unseen hw => exact Or.inr ⟨rfl, _, hw⟩

end Task

end TypeFlow
