import TypeFlow.Proofs.Ascent
import TypeFlow.Proofs.Lockstep
import TypeFlow.Proofs.Termination

/-! Runs that do not check their facts. As long as no fact rises they go through the states of a run
that does, so they end with it. Once a fact has risen, facts may rise and fall for ever. -/

namespace TypeFlow

namespace Task

/-- The same task with facts checked. -/
def checked (t : Task) : Task := { t with options := { t.options with checkMonotonic := true } }

variable {t : Task}

theorem analyze_eq_checked (hoff : t.options.checkMonotonic = false) (limit : Nat) :
    t.analyze limit = t.checked.analyze limit ∨
      ∃ fault, (t.checked.analyze limit).failure = some (.lattice fault) := by
  have hrel : Options.Relaxes (fun f => ∃ fault, f = .lattice fault) t.func t.options
      t.checked.options := .of_unchecked (fun fault => ⟨fault, rfl⟩) hoff
  rcases hrel.analyze (m := limit) (Or.inl rfl) with heq | ⟨_, hf, fault, rfl⟩
  · exact Or.inl heq
  · exact Or.inr ⟨fault, hf⟩

theorem Evaluates.checked {v : Value} {s s' : State} (he : t.Evaluates v s s')
    (hdesc : Event.Descending s'.journal) :
    t.checked.Evaluates v s s' ∧ Event.Descending s.journal := by
  cases he with
  | same hr hf hold => exact ⟨.same hr hf hold, hdesc⟩
  | @change old new name hr hf hold hne hle =>
    obtain ⟨ready, pending, heq⟩ :=
      State.foldl_scheduled v.uses ((s.evaluated v).stored v.id name old new)
    rw [heq] at hdesc
    obtain ⟨-, hstore, hearlier⟩ := hdesc
    rw [Fact.descends_eq, Except.ok.injEq, decide_eq_true_eq] at hstore
    exact ⟨.change hr hf hold hne fun _ => hstore, hearlier⟩

/-- A run that has stored descents only is a run that checks its facts. -/
theorem Midway.checked {n : Nat} {todo : List ValueId} {s : State} (h : t.Midway n todo s)
    (hdesc : Event.Descending s.journal) : t.checked.Midway n todo s := by
  induction h with
  | begin h => exact .begin h
  | skip hm hq hv ih => exact .skip (ih hdesc) hq hv
  | enter hm hq hv hb ih => exact .enter (ih hdesc) hq hv hb
  | visit hm hv he ih =>
    obtain ⟨he', hdesc'⟩ := he.checked hdesc
    exact .visit (ih hdesc') hv he'
  | revisit hm hq hv he ih =>
    obtain ⟨he', hdesc'⟩ := he.checked hdesc
    exact .revisit (ih hdesc') hq hv he'

theorem checked_falls {n : Nat} {todo : List ValueId} {s : State}
    (_ : t.checked.Midway n todo s) : t.checked.Falls s := Or.inl rfl

/-- Without the check a run goes on beyond the bound only if it has stored a fact that rises. If the
check finds no such fact, the outcome is the same without it, and the run ends or fails. -/
theorem unchecked_ends_until_rise (hfn : t.func.Accepted)
    (hoff : t.options.checkMonotonic = false) :
    (∀ n s, t.Reaches n s → Event.Descending s.journal → n ≤ t.workLimit) ∧
    (∀ limit, (∀ fault, (t.checked.analyze limit).failure ≠ some (.lattice fault)) →
      t.analyze limit = t.checked.analyze limit ∧
        (2 * t.workLimit + 2 ≤ limit → (t.analyze limit).failure = none ∨
          (∃ function value op target,
            (t.analyze limit).failure = some (.unhandled function value op target)) ∨
          (t.analyze limit).failure = some .unobserved ∧
            ∃ event, t.options.watch event = false)) ∧
    (t.func.Strict → ∀ limit fault, (t.checked.analyze limit).failure ≠ some (.lattice fault)) := by
  have wf := hfn.wellFormed
  have wf' : t.checked.func.WellFormed := wf
  refine ⟨fun n s h hdesc => ?_, fun limit hsound => ?_, fun hs limit fault hf => ?_⟩
  · have hwork : n + _ ≤ t.workLimit := ((h.midway wf).checked hdesc).work_le wf' checked_falls
    omega
  · have heq : t.analyze limit = t.checked.analyze limit := by
      rcases analyze_eq_checked hoff limit with heq | ⟨fault, hf⟩
      · exact heq
      · exact absurd hf (hsound fault)
    refine ⟨heq, fun hlimit => ?_⟩
    have hsettled : (t.analyze limit).failure ≠ some .unsettled := by
      rw [heq]
      exact analyze_ne_unsettled wf' checked_falls hlimit
    cases hf : (t.analyze limit).failure with
    | none => exact Or.inl rfl
    | some f =>
      have habort := (aborts_of_analyze hf).resolve_left fun h => hsettled (h.1 ▸ hf)
      cases habort.risks wf with
      | unhandled => exact Or.inr (Or.inl ⟨_, _, _, _, rfl⟩)
      | ascent hon =>
        rw [hoff] at hon
        cases hon
      | unseen hw => exact Or.inr (Or.inr ⟨rfl, _, hw⟩)
  · have habort := (aborts_of_analyze hf).resolve_left fun h => by cases h.1
    exact Aborts.not_lattice wf' (fun hm => Midway.sinks (t := t.checked) hs wf' hm) habort

/-- The loop is analysed alike with the check and without it. -/
theorem unchecked_ends_until_rise_counting :
    Func.counting.Accepted ∧
      (∀ fault, (counting.analyze 40).failure ≠ some (.lattice fault)) ∧
      analyze ⟨.counting, { checkMonotonic := false }⟩ 40 = counting.analyze 40 := by
  have hnone : (counting.analyze 40).failure = none := by decide +kernel
  have hsound : ∀ fault, (counting.analyze 40).failure ≠ some (.lattice fault) := by
    intro fault hf
    cases hnone.symm.trans hf
  obtain ⟨-, hsame, -⟩ := unchecked_ends_until_rise (t := ⟨.counting, { checkMonotonic := false }⟩)
    Func.counting_accepted rfl
  exact ⟨Func.counting_accepted, hsound, (hsame 40 hsound).1⟩

/-- Where the main loop is after some steps, if it has neither ended nor failed. -/
def trail (t : Task) : Nat → Phase → State → Option (Phase × State)
  | 0, phase, s => some (phase, s)
  | n + 1, phase, s =>
    match t.step phase s with
    | .ok (some phase') s' => t.trail n phase' s'
    | _ => none

theorem trail_succ {n : Nat} {phase : Phase} {s : State} {c : Phase × State}
    (h : t.trail (n + 1) phase s = some c) :
    ∃ phase' s', t.step phase s = .ok (some phase') s' ∧ t.trail n phase' s' = some c := by
  unfold trail at h
  split at h
  · next hstep => exact ⟨_, _, hstep, h⟩
  · cases h

theorem loop_succ {limit : Nat} {phase phase' : Phase} {s s' : State}
    (h : t.step phase s = .ok (some phase') s') :
    t.loop (limit + 1) phase s = t.loop limit phase' s' := by
  simp only [loop, bind, EStateM.bind, h]

/-- A main loop that goes on for some steps is cut off by a limit if it is from where it is then. -/
theorem loop_unsettled_of_trail {n : Nat} {phase phase' : Phase} {s s' : State}
    (h : t.trail n phase s = some (phase', s')) {limit : Nat}
    (hrest : n ≤ limit → ∃ last, t.loop (limit - n) phase' s' = .error .unsettled last) :
    ∃ last, t.loop limit phase s = .error .unsettled last := by
  induction n generalizing phase s limit with
  | zero =>
    obtain ⟨rfl, rfl⟩ := Prod.mk.inj (Option.some.inj h)
    exact hrest (Nat.zero_le _)
  | succ n ih =>
    obtain ⟨phase₁, s₁, hstep, htrail⟩ := trail_succ h
    cases limit with
    | zero => exact ⟨s, rfl⟩
    | succ limit =>
      rw [loop_succ hstep]
      refine ih htrail fun hle => ?_
      have hlast := hrest (by omega)
      rwa [Nat.add_sub_add_right] at hlast

/-- A main loop in which every step leads on never ends. -/
theorem loop_unsettled {I : Phase → State → Prop}
    (hstep : ∀ phase s, I phase s → ∃ phase' s', t.step phase s = .ok (some phase') s' ∧
      I phase' s') (limit : Nat) {phase : Phase} {s : State} (h : I phase s) :
    ∃ last, t.loop limit phase s = .error .unsettled last := by
  induction limit generalizing phase s with
  | zero => exact ⟨s, rfl⟩
  | succ limit ih =>
    obtain ⟨phase', s', hs', hI⟩ := hstep phase s h
    rw [loop_succ hs']
    exact ih hI

theorem analyze_unsettled {limit : Nat} {s last : State}
    (hbegin : t.begin (.initial t.func) = .ok () s)
    (hloop : t.loop limit .edges s = .error .unsettled last) :
    (t.analyze limit).failure = some .unsettled := by
  have hrun : t.run limit (.initial t.func) = .error .unsettled last := by
    simp only [run_eq, bind, EStateM.bind, hbegin, hloop]
  simp only [analyze, EStateM.run, hrun]

/-- The carousel with nothing checked. -/
def freewheel : Task := ⟨.carousel, { checkMonotonic := false }⟩

/-- The states that the carousel goes through in turn, whatever was counted and recorded before and
wherever the queue has its items. One φ-node or two are known to be integers, and each hands that on
to the one it feeds. -/
def spinning (k : Fin 6) (ready : Queue ValueId) (stats : Stats) (journal : List Event) :
    State where
  facts := match k with
    | 0 => [.bottom, .top, .top, .ofType .i32, .bottom]
    | 1 => [.bottom, .top, .ofType .i32, .ofType .i32, .bottom]
    | 2 => [.bottom, .top, .ofType .i32, .top, .bottom]
    | 3 => [.bottom, .ofType .i32, .ofType .i32, .top, .bottom]
    | 4 => [.bottom, .ofType .i32, .top, .top, .bottom]
    | 5 => [.bottom, .ofType .i32, .top, .ofType .i32, .bottom]
  reachable := IntSet.ofList [0, 1]
  visited := [⟨1, 1⟩, ⟨0, 1⟩, ⟨noBlock, 0⟩]
  stats := stats
  edges := .vacant #[default]
  ready := ready
  pending := match k with
    | 0 | 3 => IntSet.ofList [2, 3]
    | 1 | 4 => IntSet.ofList [1, 3]
    | 2 | 5 => IntSet.ofList [1, 2]
  journal := journal

/-- What waits in these states. -/
def spinningQueue : Fin 6 → List ValueId
  | 0 | 3 => [2, 3]
  | 1 | 4 => [3, 1]
  | 2 | 5 => [1, 2]

theorem step_of_pop {s s' : State} {id : ValueId} {rest : Queue ValueId}
    (hpop : s.ready.pop? t.options.order = some (id, rest))
    (hvisit : t.visitValue id (s.taken id rest) = .ok () s') :
    t.step .values s = .ok (some .values) s' := by
  have hne : s.ready.isEmpty = false := by
    rw [Bool.eq_false_iff, ne_eq, Queue.isEmpty_iff, ← Queue.pop?_eq_none_iff t.options.order, hpop]
    exact fun h => by cases h
  have htake : t.popValue s = .ok id (s.taken id rest) := by
    refine run_bind_eq_ok.mpr ⟨s, s, rfl, ?_⟩
    simp only [hpop]
    rfl
  refine run_bind_eq_ok.mpr ⟨s, s, rfl, ?_⟩
  simp only [hne, Bool.false_eq_true, if_false]
  exact run_bind_eq_ok.mpr ⟨id, _, htake, run_bind_eq_ok.mpr ⟨(), s', hvisit, rfl⟩⟩

theorem step_spinning_of_visit {k : Fin 6} {ready : Queue ValueId} {stats : Stats}
    {journal : List Event} {x y z : ValueId} (hready : ready.toList = [x, y])
    (hnext : spinningQueue (k + 1) = [y, z])
    (hvisit : ∀ rest, ∃ stats' journal',
      freewheel.visitValue x ((spinning k ready stats journal).taken x rest) =
        .ok () (spinning (k + 1) (rest.push z) stats' journal')) :
    ∃ ready' stats' journal', ready'.toList = spinningQueue (k + 1) ∧
      freewheel.step .values (spinning k ready stats journal) =
        .ok (some .values) (spinning (k + 1) ready' stats' journal') := by
  obtain ⟨rest, hpop, hrest⟩ := Queue.exists_pop_oldest hready
  obtain ⟨stats', journal', hv⟩ := hvisit rest
  refine ⟨rest.push z, stats', journal', ?_, step_of_pop hpop hv⟩
  rw [Queue.toList_push, hrest, hnext]
  rfl

theorem step_spinning (k : Fin 6) {ready : Queue ValueId} (hready : ready.toList = spinningQueue k)
    (stats : Stats) (journal : List Event) :
    ∃ ready' stats' journal', ready'.toList = spinningQueue (k + 1) ∧
      freewheel.step .values (spinning k ready stats journal) =
        .ok (some .values) (spinning (k + 1) ready' stats' journal') := by
  match k with
  | 0 => exact step_spinning_of_visit hready rfl fun _ => ⟨_, _, rfl⟩
  | 1 => exact step_spinning_of_visit hready rfl fun _ => ⟨_, _, rfl⟩
  | 2 => exact step_spinning_of_visit hready rfl fun _ => ⟨_, _, rfl⟩
  | 3 => exact step_spinning_of_visit hready rfl fun _ => ⟨_, _, rfl⟩
  | 4 => exact step_spinning_of_visit hready rfl fun _ => ⟨_, _, rfl⟩
  | 5 => exact step_spinning_of_visit hready rfl fun _ => ⟨_, _, rfl⟩

theorem trail_freewheel : ∃ s ready stats journal, ready.toList = spinningQueue 0 ∧
    freewheel.begin (.initial freewheel.func) = .ok () s ∧
      freewheel.trail 6 .edges s = some (.values, spinning 0 ready stats journal) := by
  let last := (freewheel.analyze 6).state
  refine ⟨_, last.ready, last.stats, last.journal, ?_, rfl, ?_⟩
  · decide +kernel
  · decide +kernel

/-- The analysis of an accepted function whose facts are not checked need not end. -/
theorem freewheel_unsettled : freewheel.func.Accepted ∧
    ∀ limit, (freewheel.analyze limit).failure = some .unsettled := by
  refine ⟨Func.carousel_accepted, fun limit => ?_⟩
  obtain ⟨s, ready, stats, journal, hready, hbegin, htrail⟩ := trail_freewheel
  have hspin : ∃ last, freewheel.loop (limit - 6) .values (spinning 0 ready stats journal) =
      .error .unsettled last := by
    refine loop_unsettled (I := fun phase s => phase = .values ∧ ∃ k ready stats journal,
      ready.toList = spinningQueue k ∧ s = spinning k ready stats journal) ?_ _
      ⟨rfl, 0, ready, stats, journal, hready, rfl⟩
    rintro _ _ ⟨rfl, k, ready, stats, journal, hready, rfl⟩
    obtain ⟨ready', stats', journal', hready', hstep⟩ := step_spinning k hready stats journal
    exact ⟨_, _, hstep, rfl, k + 1, ready', stats', journal', hready', rfl⟩
  obtain ⟨last, hlast⟩ := loop_unsettled_of_trail htrail fun _ => hspin
  exact analyze_unsettled hbegin hlast

end Task

end TypeFlow
