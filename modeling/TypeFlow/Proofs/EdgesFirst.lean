import Mathlib.Logic.Relation
import TypeFlow.Proofs.EventStream
import TypeFlow.Proofs.Worklists

/-! Edges come first. A value waits only because an operand of it has changed, and the instructions
that queue edges on their evaluation have no operands. So once the main loop has turned to the
values that wait it is done with edges for good. -/

namespace TypeFlow

/-- On the way from one state to the other no edge is queued, taken or visited. -/
structure State.LeavesEdges (s s' : State) : Prop where
  edges : s'.edges.toList = s.edges.toList
  visited : s'.visited = s.visited
  reachable : s'.reachable = s.reachable
  journal : ∃ new, s'.journal = new ++ s.journal ∧ ∀ event ∈ new, event.edge? = none

namespace State.LeavesEdges

theorem refl (s : State) : s.LeavesEdges s := ⟨rfl, rfl, rfl, [], rfl, by simp⟩

theorem trans {s₁ s₂ s₃ : State} (h : s₁.LeavesEdges s₂) (h' : s₂.LeavesEdges s₃) :
    s₁.LeavesEdges s₃ := by
  obtain ⟨new, hnew, hevents⟩ := h.journal
  obtain ⟨new', hnew', hevents'⟩ := h'.journal
  refine ⟨h'.edges.trans h.edges, h'.visited.trans h.visited, h'.reachable.trans h.reachable,
    new' ++ new, ?_, List.forall_mem_append.mpr ⟨hevents', hevents⟩⟩
  rw [hnew', hnew, List.append_assoc]

end State.LeavesEdges

theorem State.Records.edgeless {s s' : State} {id : ValueId} (h : s.Records id s') :
    ∃ new, s'.journal = new ++ s.journal ∧ ∀ event ∈ new, event.edge? = none := by
  obtain ⟨new, hnew, hevents⟩ := h
  refine ⟨new, hnew, fun event hevent => ?_⟩
  rcases hevents event hevent with rfl | ⟨name, old, f, rfl⟩ <;> rfl

namespace Task

variable {t : Task}

theorem jumps_of_operands (wf : t.func.WellFormed) {id : ValueId} {v : Value}
    (hv : t.func.value? id = some v) (ho : v.operands ≠ []) : v.jumps = [] :=
  if_neg fun hop => ho (wf.jump_operands hv hop)

theorem Evaluates.leavesEdges {v : Value} {s s' : State} (he : t.Evaluates v s s')
    (hj : v.jumps = []) : s.LeavesEdges s' where
  edges := by rw [he.effect.edges, hj, List.append_nil]
  visited := he.effect.visited
  reachable := he.effect.reachable
  journal := he.records.edgeless

theorem Breaks.leavesEdges {v : Value} {f : Failure} {s s' : State} (hb : t.Breaks v s f s')
    (hj : v.jumps = []) : s.LeavesEdges s' := by
  have hedges : (s.evaluated v).edges = s.edges := by
    rw [State.evaluated, hj, Queue.pushAll_nil]
  have hjournal := hb.records.edgeless
  cases hb with
  | evalUnseen => exact ⟨rfl, rfl, rfl, hjournal⟩
  | unhandled => exact ⟨congrArg _ hedges, rfl, rfl, hjournal⟩
  | ascent => exact ⟨congrArg _ hedges, rfl, rfl, hjournal⟩
  | updateUnseen => exact ⟨congrArg _ hedges, rfl, rfl, hjournal⟩

theorem visitValue_leavesEdges (wf : t.func.WellFormed) {n : Nat} {s : State}
    (hs : t.Reaches n s) {id : ValueId} {rest : Queue ValueId} (hq : s.ready.Takes id rest) :
    Meets (t.visitValue id) (s.taken id rest) (fun _ => s.LeavesEdges)
      (fun _ => s.LeavesEdges) := by
  have hc := (hs.midway wf).coherent wf
  obtain ⟨v, hv, -, ho⟩ := hc.ready_value id (hq.mem_iff.mpr (Or.inl rfl))
  have hj := jumps_of_operands wf hv ho
  have htaken : s.LeavesEdges (s.taken id rest) := ⟨rfl, rfl, rfl, [], rfl, by simp⟩
  exact (visitValue_meets wf (hc.taken hq).facts_length hv).mono
    (fun _ _ he => htaken.trans (he.leavesEdges hj))
    (fun _ _ hb => htaken.trans (hb.leavesEdges hj))

/-- The main loop gets from one phase and state to the other, whichever items it takes. -/
abbrev Proceeds (t : Task) : Phase × State → Phase × State → Prop :=
  Relation.ReflTransGen fun c d => t.Picks c.2 c.1 (.ok (some d.1) d.2)

/-- A run is about to do a step of this phase, and if it is to take a value no edge waits. -/
structure OnCourse (t : Task) (c : Phase × State) : Prop where
  reaches : ∃ n, t.Reaches n c.2
  edges : c.1 = .values → c.2.edges.isEmpty = true

theorem OnCourse.picks (wf : t.func.WellFormed) {c d : Phase × State} (hc : t.OnCourse c)
    (h : t.Picks c.2 c.1 (.ok (some d.1) d.2)) :
    t.OnCourse d ∧ (c.1 = .values → d.1 = .values ∧ c.2.LeavesEdges d.2) := by
  obtain ⟨phase, s⟩ := c
  obtain ⟨phase', s'⟩ := d
  obtain ⟨n, hs⟩ := hc.reaches
  cases h with
  | edge hq hv => exact ⟨⟨⟨n + 1, hs.turn (hv ▸ .edge hq)⟩, by simp⟩, by simp⟩
  | turn he => exact ⟨⟨⟨n, hs⟩, fun _ => he⟩, by simp⟩
  | value hq hv =>
    have hleaves := (visitValue_leavesEdges wf hs hq).of_ok hv
    refine ⟨⟨⟨n + 1, hs.turn (hv ▸ .value hq)⟩, fun _ => ?_⟩, fun _ => ⟨rfl, hleaves⟩⟩
    rw [Queue.isEmpty_iff, hleaves.edges, ← Queue.isEmpty_iff]
    exact hc.edges rfl
  | again hr hne => exact absurd (hc.edges rfl) hne

theorem OnCourse.fails (wf : t.func.WellFormed) {s s' : State} {f : Failure}
    (hc : t.OnCourse (.values, s)) (h : t.Picks s .values (.error f s')) : s.LeavesEdges s' := by
  obtain ⟨n, hs⟩ := hc.reaches
  cases h with
  | valueFails hq hv => exact (visitValue_leavesEdges wf hs hq).of_error hv

theorem Proceeds.onCourse (wf : t.func.WellFormed) {c d : Phase × State} (h : t.Proceeds c d)
    (hc : t.OnCourse c) :
    t.OnCourse d ∧ (c.1 = .values → d.1 = .values ∧ c.2.LeavesEdges d.2) := by
  induction h with
  | refl => exact ⟨hc, fun hphase => ⟨hphase, .refl _⟩⟩
  | tail hmid hpick ih =>
    obtain ⟨hcourse, hvalues⟩ := ih
    obtain ⟨hcourse', hvalues'⟩ := hcourse.picks wf hpick
    refine ⟨hcourse', fun hphase => ?_⟩
    obtain ⟨hmid, hleaves⟩ := hvalues hphase
    obtain ⟨hlast, hleaves'⟩ := hvalues' hmid
    exact ⟨hlast, hleaves.trans hleaves'⟩

theorem trail_proceeds {m : Nat} {phase : Phase} {s : State} {c : Phase × State}
    (h : t.trail m phase s = some c) : t.Proceeds (phase, s) c := by
  induction m generalizing phase s with
  | zero =>
    obtain rfl : (phase, s) = c := Option.some.inj h
    exact .refl
  | succ m ih =>
    obtain ⟨phase', s', hstep, htrail⟩ := trail_succ h
    exact .head ((t.step_picks phase s).of_ok hstep) (ih htrail)

theorem loop_of_trail {m limit : Nat} {phase : Phase} {s : State} {c : Phase × State}
    (h : t.trail m phase s = some c) (hle : m ≤ limit) :
    t.loop limit phase s = t.loop (limit - m) c.1 c.2 := by
  induction m generalizing limit phase s with
  | zero =>
    obtain rfl : (phase, s) = c := Option.some.inj h
    rfl
  | succ m ih =>
    obtain ⟨phase', s', hstep, htrail⟩ := trail_succ h
    obtain ⟨limit, rfl⟩ : ∃ k, limit = k + 1 := ⟨limit - 1, by omega⟩
    rw [loop_succ hstep, ih htrail (by omega), Nat.add_sub_add_right]

theorem trail_of_le {m k : Nat} {phase : Phase} {s : State} {c c' : Phase × State}
    (h : t.trail m phase s = some c) (hle : m ≤ k) (h' : t.trail k phase s = some c') :
    t.trail (k - m) c.1 c.2 = some c' := by
  induction m generalizing k phase s with
  | zero =>
    obtain rfl : (phase, s) = c := Option.some.inj h
    exact h'
  | succ m ih =>
    obtain ⟨phase₁, s₁, hstep, htrail⟩ := trail_succ h
    obtain ⟨k, rfl⟩ : ∃ j, k = j + 1 := ⟨k - 1, by omega⟩
    rw [trail, hstep] at h'
    rw [Nat.add_sub_add_right]
    exact ih htrail (by omega) h'

theorem loop_leavesEdges (wf : t.func.WellFormed) (limit : Nat) {s : State}
    (hc : t.OnCourse (.values, s)) :
    Meets (t.loop limit .values) s (fun _ => s.LeavesEdges) (fun _ => s.LeavesEdges) := by
  induction limit generalizing s with
  | zero => exact .refl s
  | succ limit ih =>
    simp only [loop, meets_bind]
    refine (t.step_picks .values s).mono (fun next s' hpick => ?_) (fun _ _ => hc.fails wf)
    cases next with
    | none =>
      cases hpick with
      | finish => exact .refl s
    | some phase =>
      obtain ⟨hcourse, hvalues⟩ := hc.picks (d := (phase, s')) wf hpick
      obtain ⟨rfl, hleaves⟩ := hvalues rfl
      exact (ih hcourse).mono (fun _ _ h => hleaves.trans h) (fun _ _ h => hleaves.trans h)

theorem analyze_leavesEdges (wf : t.func.WellFormed) {m limit : Nat} {s s₁ : State}
    (hbegin : t.begin (.initial t.func) = .ok () s) (hc : t.OnCourse (.values, s₁))
    (htrail : t.trail m .edges s = some (.values, s₁)) (hle : m ≤ limit) :
    s₁.LeavesEdges (t.analyze limit).state := by
  have hrun : Meets (t.run limit) (.initial t.func) (fun _ => s₁.LeavesEdges)
      (fun _ => s₁.LeavesEdges) := by
    rw [run_eq, meets_bind, Meets, hbegin]
    simp only [meets_bind, meets_get, meets_emit]
    rw [Meets, loop_of_trail htrail hle]
    refine (loop_leavesEdges wf (limit - m) hc).mono (fun _ last hlast => ?_) (fun _ _ h => h)
    -- The report of the end is an event, too, but none of an edge.
    have hdone : last.LeavesEdges { last with journal := .done last.stats :: last.journal } :=
      ⟨rfl, rfl, rfl, [.done last.stats], rfl, by simp [Event.edge?]⟩
    rw [ite_self]
    exact hlast.trans hdone
  obtain ⟨hnone, hsome⟩ := analyze_meets hrun
  cases hf : (t.analyze limit).failure with
  | none => exact hnone hf
  | some f => exact hsome f hf

/-- Whichever items the main loop takes, from when it has turned to values it takes values only, and
no edge is queued or visited any more, be it that the run fails. So the main loop visits edges and
then evaluates values, and never goes back. -/
theorem edges_before_values (hfn : t.func.Accepted) {s : State}
    (hbegin : t.begin (.initial t.func) = .ok () s) :
    (∀ s₁ c, t.Proceeds (.edges, s) (.values, s₁) → t.Proceeds (.values, s₁) c →
      c.1 = .values ∧ c.2.edges.isEmpty = true ∧ s₁.LeavesEdges c.2 ∧
        ∀ f s₂, t.Picks c.2 .values (.error f s₂) → s₁.LeavesEdges s₂) ∧
    ∀ m s₁ limit, t.trail m .edges s = some (.values, s₁) → m ≤ limit →
      s₁.LeavesEdges (t.analyze limit).state ∧
        ∀ k c, m ≤ k → t.trail k .edges s = some c →
          c.1 = .values ∧ c.2.edges.isEmpty = true ∧ s₁.LeavesEdges c.2 := by
  have wf := hfn.wellFormed
  have hstart : t.OnCourse (.edges, s) := ⟨⟨0, .begin hbegin⟩, by simp⟩
  have hvalues : ∀ {s₁ c}, t.Proceeds (.edges, s) (.values, s₁) → t.Proceeds (.values, s₁) c →
      t.OnCourse c ∧ c.1 = .values ∧ s₁.LeavesEdges c.2 := by
    intro s₁ c hbefore hafter
    obtain ⟨hmid, -⟩ := hbefore.onCourse wf hstart
    obtain ⟨hcourse, hleaves⟩ := hafter.onCourse wf hmid
    exact ⟨hcourse, hleaves rfl⟩
  refine ⟨fun s₁ c hbefore hafter => ?_, fun m s₁ limit hm hlimit => ⟨?_, fun k c hle hk => ?_⟩⟩
  · obtain ⟨hcourse, hphase, hleaves⟩ := hvalues hbefore hafter
    refine ⟨hphase, hcourse.edges hphase, hleaves, fun f s₂ hfails => hleaves.trans ?_⟩
    exact OnCourse.fails wf (hphase ▸ hcourse) hfails
  · have hmid := (trail_proceeds hm).onCourse wf hstart
    exact analyze_leavesEdges wf hbegin hmid.1 hm hlimit
  · have hafter := trail_proceeds (trail_of_le hm hle hk)
    obtain ⟨hcourse, hphase, hleaves⟩ := hvalues (trail_proceeds hm) hafter
    exact ⟨hphase, hcourse.edges hphase, hleaves⟩

/-- When all edges of the loop have been visited four of its values wait, and only these are
evaluated from then on. -/
theorem edges_before_values_counting :
    let s₁ := (counting.analyze 5).state
    let last := (counting.analyze 40).state
    counting.func.Accepted ∧
      (∃ s, counting.begin (.initial counting.func) = .ok () s ∧
        counting.trail 5 .edges s = some (.values, s₁)) ∧
      s₁.LeavesEdges last ∧ s₁.ready.toList = [1, 4, 3, 2] ∧
      last.journal = .done last.stats :: [.eval 2, .eval 3, .eval 4, .eval 1] ++ s₁.journal := by
  intro s₁ last
  obtain ⟨start, hbegin⟩ : ∃ start, counting.begin (.initial .counting) = .ok () start := ⟨_, rfl⟩
  have htrail : counting.trail 5 .edges start = some (.values, s₁) := by
    obtain rfl := begin_eq hbegin
    decide +kernel
  obtain ⟨-, hloop⟩ := edges_before_values (t := counting) Func.counting_accepted hbegin
  exact ⟨Func.counting_accepted, ⟨start, hbegin, htrail⟩, (hloop 5 s₁ 40 htrail (by decide)).1,
    by decide +kernel, by decide +kernel⟩

end Task

end TypeFlow
