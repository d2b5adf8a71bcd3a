import TypeFlow.Proofs.Evaluation

/-! The states inside a turn of a run. A turn that visits an edge evaluates the members of a block
one after the other, and an invariant of the analysis is kept by each of these evaluations while
some members are still to come. Here a run is cut into such small steps, so that invariants can be
proved by induction on them. -/

namespace TypeFlow

def State.entered (s : State) (e : Edge) : State :=
  { s with
    visited := e :: s.visited
    reachable := s.reachable.insert e.dst
    stats := { s.stats with
      edgesVisited := s.stats.edgesVisited + 1
      blocksReached :=
        if !s.isReachable e.dst then s.stats.blocksReached + 1 else s.stats.blocksReached }
    journal := .edge e (!s.isReachable e.dst) :: s.journal }

def State.taken (s : State) (id : ValueId) (rest : Queue ValueId) : State :=
  { s with ready := rest, pending := s.pending.erase id }

namespace Task

/-- Some run is in `s` during or after the turn that took its item number `n`, and the values `todo`
are still to be evaluated in this turn. -/
inductive Midway (t : Task) : Nat → List ValueId → State → Prop
  | begin {s : State} (h : t.begin (.initial t.func) = .ok () s) : t.Midway 0 [] s
  | skip {n : Nat} {s : State} {e : Edge} {rest : Queue Edge} (hs : t.Midway n [] s)
    (hq : s.edges.Takes e rest) (hv : s.isVisited e = true) :
    t.Midway (n + 1) [] { s with edges := rest }
  | enter {n : Nat} {s : State} {e : Edge} {rest : Queue Edge} {b : Block}
    (hs : t.Midway n [] s) (hq : s.edges.Takes e rest) (hv : s.isVisited e = false)
    (hb : t.func.block? e.dst = some b) :
    t.Midway (n + 1) (if s.isReachable e.dst then b.phis else b.members)
      (({ s with edges := rest } : State).entered e)
  | visit {n : Nat} {id : ValueId} {todo : List ValueId} {v : Value} {s s' : State}
    (hs : t.Midway n (id :: todo) s) (hv : t.func.value? id = some v)
    (he : t.Evaluates v s s') :
    t.Midway n todo { s' with edges := s'.edges.pushAll (t.branches v) }
  | revisit {n : Nat} {id : ValueId} {rest : Queue ValueId} {v : Value} {s s' : State}
    (hs : t.Midway n [] s) (hq : s.ready.Takes id rest) (hv : t.func.value? id = some v)
    (he : t.Evaluates v (s.taken id rest) s') : t.Midway (n + 1) [] s'

/-- Some run fails during the turn that took its item number `n`. -/
inductive Stops (t : Task) : Nat → Failure → State → Prop
  | enter {n : Nat} {s : State} {e : Edge} {rest : Queue Edge} (hs : t.Midway n [] s)
    (hq : s.edges.Takes e rest) (hv : s.isVisited e = false)
    (hw : t.options.watch (.edge e (!s.isReachable e.dst)) = false) :
    t.Stops (n + 1) .unobserved (({ s with edges := rest } : State).entered e)
  | visit {n : Nat} {id : ValueId} {todo : List ValueId} {v : Value} {f : Failure} {s s' : State}
    (hs : t.Midway n (id :: todo) s) (hv : t.func.value? id = some v) (hb : t.Breaks v s f s') :
    t.Stops n f s'
  | revisit {n : Nat} {id : ValueId} {rest : Queue ValueId} {v : Value} {f : Failure}
    {s s' : State} (hs : t.Midway n [] s) (hq : s.ready.Takes id rest)
    (hv : t.func.value? id = some v) (hb : t.Breaks v (s.taken id rest) f s') :
    t.Stops (n + 1) f s'

/-- What is queued or still to be evaluated exists, and queued values live in reachable blocks. -/
structure Coherent (t : Task) (todo : List ValueId) (s : State) : Prop where
  facts_length : s.facts.length = t.func.values.length
  edge_block : ∀ e ∈ s.edges.toList, ∃ b, t.func.block? e.dst = some b
  ready_value : ∀ id ∈ s.ready.toList, ∃ v, t.func.value? id = some v ∧
    s.isReachable v.block = true ∧ v.operands ≠ []
  todo_value : ∀ id ∈ todo, ∃ v, t.func.value? id = some v ∧ s.isReachable v.block = true
  queued : s.Queued

end Task

namespace State

theorem isReachable_entered (s : State) (e : Edge) (b : BlockId) :
    (s.entered e).isReachable b = true ↔ b = e.dst ∨ s.isReachable b = true := by
  simp [Solution.isReachable, entered]

theorem isVisited_entered (s : State) (e e' : Edge) :
    (s.entered e).isVisited e' = true ↔ e' = e ∨ s.isVisited e' = true := by
  simp [Solution.isVisited, entered]

theorem Queued.taken {s : State} (hq : s.Queued) {id : ValueId} {rest : Queue ValueId}
    (h : s.ready.Takes id rest) : (s.taken id rest).Queued := by
  obtain ⟨hid, hnd⟩ := List.nodup_cons.mp (h.perm.nodup_iff.mp hq.nodup)
  refine ⟨fun {x} => ?_, hnd⟩
  change (s.pending.erase id).contains x = true ↔ x ∈ rest.toList
  rw [IntSet.contains_erase, hq.pending_iff, h.mem_iff]
  constructor
  · rintro ⟨hne, he | hm⟩
    · exact absurd he hne
    · exact hm
  · intro hm
    exact ⟨fun he => hid (he ▸ hm), Or.inr hm⟩

end State

namespace Task

variable {t : Task}

theorem begin_eq {s : State} (h : t.begin (.initial t.func) = .ok () s) :
    s = { State.initial t.func with
      journal := [.start t.func.blocks.length t.func.values.length]
      edges := ({} : Queue Edge).push t.entryEdge } := by
  have hm : Meets t.begin (.initial t.func) (fun _ s' => s' = { State.initial t.func with
      journal := [.start t.func.blocks.length t.func.values.length]
      edges := ({} : Queue Edge).push t.entryEdge }) (fun _ _ => True) := by
    simp only [begin, meets_bind, meets_emit, pushEdge, meets_modify]
    split_ifs
    rfl
  exact hm.of_ok h

theorem jumps_block (wf : t.func.WellFormed) {id : ValueId} {v : Value}
    (hv : t.func.value? id = some v) {e : Edge} (he : e ∈ v.jumps ++ t.branches v) :
    ∃ b, t.func.block? e.dst = some b := by
  obtain ⟨c, hc, rfl⟩ : ∃ c ∈ v.targets, (⟨v.block, c⟩ : Edge) = e := by
    simp only [Value.jumps, branches, List.mem_append] at he
    rcases he with he | he
    · split at he
      · exact List.mem_map.mp he
      · cases he
    · split at he
      · exact List.mem_map.mp he
      · cases he
  exact wf.target_block hv hc

namespace Coherent

theorem begin {s : State} (wf : t.func.WellFormed)
    (h : t.begin (.initial t.func) = .ok () s) : t.Coherent [] s := by
  obtain rfl := begin_eq h
  refine ⟨by simp [State.initial], ?_, ?_, by simp, ⟨?_, ?_⟩⟩
  · intro e he
    obtain rfl : e = t.entryEdge := by simpa using he
    exact wf.entry_block
  · intro id hid
    simp [State.initial] at hid
  · simp [State.initial]
  · simp [State.initial]

theorem evaluates (wf : t.func.WellFormed) {todo : List ValueId} {id : ValueId} {v : Value}
    {s s' : State} (hc : t.Coherent todo s) (hv : t.func.value? id = some v)
    (he : t.Evaluates v s s') : t.Coherent todo s' := by
  have hr := he.effect.isReachable_eq
  refine ⟨he.effect.facts_length.trans hc.facts_length, ?_, ?_, ?_, he.queued hc.queued⟩
  · intro e hm
    rw [he.effect.edges] at hm
    rcases List.mem_append.mp hm with hm | hm
    · exact hc.edge_block e hm
    · exact jumps_block wf hv (List.mem_append_left _ hm)
  · intro x hx
    rcases (he.mem_ready hc.queued x).mp hx with hx | ⟨-, u, hu, rfl, hreach⟩
    · simpa only [hr] using hc.ready_value x hx
    · obtain ⟨w, hw, hb, href⟩ := (wf.uses_iff hv).mp hu
      refine ⟨w, hw, by rw [hr, hb, hreach], ?_⟩
      intro hnil
      simp [Value.refersTo, hnil] at href
  · intro x hx
    simpa only [hr] using hc.todo_value x hx

theorem taken {todo : List ValueId} {s : State} (hc : t.Coherent todo s) {id : ValueId}
    {rest : Queue ValueId} (h : s.ready.Takes id rest) : t.Coherent todo (s.taken id rest) where
  facts_length := hc.facts_length
  edge_block := hc.edge_block
  ready_value x hx := hc.ready_value x (h.mem_iff.mpr (Or.inr hx))
  todo_value := hc.todo_value
  queued := hc.queued.taken h

theorem enter (wf : t.func.WellFormed) {s : State} (hc : t.Coherent [] s) {e : Edge}
    {rest : Queue Edge} {b : Block} (hq : s.edges.Takes e rest)
    (hb : t.func.block? e.dst = some b) :
    t.Coherent (if s.isReachable e.dst then b.phis else b.members)
      (({ s with edges := rest } : State).entered e) := by
  refine ⟨hc.facts_length, fun e' he' => hc.edge_block e' (hq.mem_iff.mpr (Or.inr he')), ?_, ?_,
    ⟨hc.queued.pending_iff, hc.queued.nodup⟩⟩
  · intro id hid
    obtain ⟨v, hv, hr, ho⟩ := hc.ready_value id hid
    exact ⟨v, hv, (State.isReachable_entered _ _ _).mpr (Or.inr hr), ho⟩
  · intro id hid
    have hm : id ∈ b.members := by
      split at hid
      · exact List.mem_append_left _ hid
      · exact hid
    rcases List.mem_append.mp hm with hm | hm
    · obtain ⟨v, hv, -, hblock⟩ := wf.phi_value hb hm
      exact ⟨v, hv, (State.isReachable_entered _ _ _).mpr (Or.inl hblock)⟩
    · obtain ⟨v, hv, -, hblock⟩ := wf.instr_value hb hm
      exact ⟨v, hv, (State.isReachable_entered _ _ _).mpr (Or.inl hblock)⟩

theorem todo_reachable {todo : List ValueId} {s : State} {id : ValueId} {v : Value}
    (hc : t.Coherent (id :: todo) s) (hv : t.func.value? id = some v) :
    s.isReachable v.block = true := by
  obtain ⟨w, hw, hr⟩ := hc.todo_value id List.mem_cons_self
  obtain rfl : w = v := Option.some.inj (hw.symm.trans hv)
  exact hr

theorem ready_reachable {todo : List ValueId} {s : State} {id : ValueId} {v : Value}
    {rest : Queue ValueId} (hc : t.Coherent todo s) (hq : s.ready.Takes id rest)
    (hv : t.func.value? id = some v) : s.isReachable v.block = true ∧ v.operands ≠ [] := by
  obtain ⟨w, hw, hr⟩ := hc.ready_value id (hq.mem_iff.mpr (Or.inl rfl))
  obtain rfl : w = v := Option.some.inj (hw.symm.trans hv)
  exact hr

end Coherent

theorem Midway.coherent (wf : t.func.WellFormed) {n : Nat} {todo : List ValueId} {s : State}
    (h : t.Midway n todo s) : t.Coherent todo s := by
  induction h with
  | begin h => exact .begin wf h
  | skip hs hq hv ih =>
    exact ⟨ih.facts_length, fun e he => ih.edge_block e (hq.mem_iff.mpr (Or.inr he)),
      ih.ready_value, ih.todo_value, ⟨ih.queued.pending_iff, ih.queued.nodup⟩⟩
  | enter hs hq hv hb ih => exact ih.enter wf hq hb
  | @visit n id todo v s s' hs hv he ih =>
    have hc := ih.evaluates wf hv he
    refine ⟨hc.facts_length, ?_, hc.ready_value,
      fun x hx => hc.todo_value x (List.mem_cons_of_mem _ hx),
      ⟨hc.queued.pending_iff, hc.queued.nodup⟩⟩
    intro e hm
    rcases List.mem_append.mp ((Queue.toList_pushAll _ _) ▸ hm) with hm | hm
    · exact hc.edge_block e hm
    · exact jumps_block wf hv (List.mem_append_right _ hm)
  | revisit hs hq hv he ih => exact (ih.taken hq).evaluates wf hv he

/-- What comes of the evaluation of a value and is not undone by other evaluations holds from when its
block has been entered. -/
theorem Midway.since_evaluated (wf : t.func.WellFormed) {P : State → Prop} {id : ValueId}
    {v : Value} (hv : t.func.value? id = some v)
    (hqueues : ∀ {s : State} edges ready pending, P s →
      P { s with edges := edges, ready := ready, pending := pending })
    (hentered : ∀ {s : State} e, P s → P (s.entered e))
    (hevaluates : ∀ {x w s s'}, t.func.value? x = some w → t.Evaluates w s s' → x = id ∨ P s → P s')
    {n : Nat} {todo : List ValueId} {s : State} (h : t.Midway n todo s)
    (hr : s.isReachable v.block = true) (htodo : id ∉ todo) : P s := by
  induction h with
  | begin h =>
    obtain rfl := begin_eq h
    cases hr
  | skip hm hq hvis ih => exact hqueues _ _ _ (ih hr htodo)
  | @enter n s e rest b hm hq hvis hb ih =>
    by_cases hold : s.isReachable v.block = true
    · exact hentered _ (hqueues _ _ _ (ih hold List.not_mem_nil))
    · have hnew : v.block = e.dst :=
        ((State.isReachable_entered { s with edges := rest } e _).mp hr).resolve_right hold
      rw [hnew] at hold
      rw [if_neg hold] at htodo
      exact absurd (wf.mem_members hv (hnew ▸ hb)) htodo
  | @visit n x todo w s s' hm hw he ih =>
    refine hqueues _ _ _ (hevaluates hw he ?_)
    by_cases hid : x = id
    · exact Or.inl hid
    · have hold : s.isReachable v.block = true := (he.effect.isReachable_eq _).symm.trans hr
      exact Or.inr (ih hold (List.not_mem_cons_of_ne_of_not_mem (Ne.symm hid) htodo))
  | @revisit n x rest w s s' hm hq hw he ih =>
    have hold : s.isReachable v.block = true := (he.effect.isReachable_eq _).symm.trans hr
    have htaken : P (s.taken x rest) := hqueues _ _ _ (ih hold htodo)
    exact hevaluates hw he (Or.inr htaken)

theorem branches_of_isPhi {v : Value} (hp : v.isPhi = true) : t.branches v = [] := by
  have hop : v.op = .phi := by simpa [Value.isPhi] using hp
  simp [branches, hop]

/-- `P` speaks of a state in which some values are still to be evaluated, and every evaluation hands
it on; where one fails, `E` holds. -/
structure Passes (t : Task) (P : List ValueId → State → Prop) (E : Failure → State → Prop) :
    Prop where
  facts_length : ∀ {todo s}, P todo s → s.facts.length = t.func.values.length
  visit : ∀ {id todo v s s'}, P (id :: todo) s → t.func.value? id = some v → t.Evaluates v s s' →
    P todo { s' with edges := s'.edges.pushAll (t.branches v) }
  breaks : ∀ {id todo v f s s'}, P (id :: todo) s → t.func.value? id = some v →
    t.Breaks v s f s' → E f s'

namespace Passes

variable {P : List ValueId → State → Prop} {E : Failure → State → Prop}

theorem visitPhis (h : t.Passes P E) (wf : t.func.WellFormed) {b : Block} {i : BlockId}
    (hb : t.func.block? i = some b) {tail : List ValueId} {s : State}
    (hs : P (b.phis ++ tail) s) :
    Meets (b.phis.forM t.visitValue) s (fun _ => P tail) E := by
  refine (meets_forM (I := fun rest s => rest ⊆ b.phis ∧ P (rest ++ tail) s) ?_
    ⟨fun _ h => h, hs⟩).mono (fun _ _ h => h.2) (fun _ _ h => h)
  rintro id rest s ⟨hsub, hm⟩
  obtain ⟨v, hv, hp, -⟩ := wf.phi_value hb (hsub List.mem_cons_self)
  refine (visitValue_meets wf (h.facts_length hm) hv).mono
    (fun _ s' he => ?_) (fun f s' hbreak => h.breaks hm hv hbreak)
  have hvisit := h.visit hm hv he
  rw [branches_of_isPhi hp] at hvisit
  exact ⟨fun x hx => hsub (List.mem_cons_of_mem _ hx), hvisit⟩

theorem visitInstrs (h : t.Passes P E) (wf : t.func.WellFormed) {b : Block} {i : BlockId}
    (hb : t.func.block? i = some b) {s : State} (hs : P b.instrs s) :
    Meets (b.instrs.forM (t.visitInstr b)) s (fun _ => P []) E := by
  refine (meets_forM (I := fun rest s => rest ⊆ b.instrs ∧ P rest s) ?_
    ⟨fun _ h => h, hs⟩).mono (fun _ _ h => h.2) (fun _ _ h => h)
  rintro id rest s ⟨hsub, hm⟩
  obtain ⟨v, hv, -, hblock⟩ := wf.instr_value hb (hsub List.mem_cons_self)
  refine (visitInstr_meets wf (h.facts_length hm) hv
    (hblock.trans (wf.block_id hb).symm)).mono ?_ (fun f s' hbreak => h.breaks hm hv hbreak)
  rintro _ _ ⟨s', he, rfl⟩
  exact ⟨fun x hx => hsub (List.mem_cons_of_mem _ hx), h.visit hm hv he⟩

theorem visitEdge (h : t.Passes P E) (wf : t.func.WellFormed) {s : State} {e : Edge} {b : Block}
    (hb : t.func.block? e.dst = some b) (hskip : s.isVisited e = true → P [] s)
    (henter : s.isVisited e = false →
      P (if s.isReachable e.dst then b.phis else b.members) (s.entered e))
    (hunseen : s.isVisited e = false →
      t.options.watch (.edge e (!s.isReachable e.dst)) = false → E .unobserved (s.entered e)) :
    Meets (t.visitEdge e) s (fun _ => P []) E := by
  simp only [Task.visitEdge, meets_bind, meets_get]
  split_ifs with hv
  · exact hskip hv
  have hv' : s.isVisited e = false := by simpa using hv
  have henter := henter hv'
  simp only [Task.enter, meets_bind, meets_get, meets_set, meets_pure, meets_emit]
  by_cases hw : t.options.watch (.edge e (!s.isReachable e.dst)) = true
  · rw [if_pos hw]
    simp only [hb, meets_need_some]
    by_cases hr : s.isReachable e.dst = true
    · rw [if_pos hr, ← List.append_nil b.phis] at henter
      refine (h.visitPhis wf hb henter).mono (fun _ s' hs' => ?_) (fun _ _ h => h)
      rw [if_neg (by simpa using hr), meets_pure]
      exact hs'
    · rw [if_neg hr] at henter
      refine (h.visitPhis wf hb henter).mono (fun _ s' hs' => ?_) (fun _ _ h => h)
      rw [if_pos (by simpa using hr)]
      exact h.visitInstrs wf hb hs'
  · rw [if_neg hw]
    exact hunseen hv' (by simpa using hw)

end Passes

theorem Midway.passes (wf : t.func.WellFormed) (n : Nat) : t.Passes (t.Midway n) (t.Stops n) :=
  ⟨fun hs => (hs.coherent wf).facts_length, .visit, .visit⟩

theorem visitEdge_meets (wf : t.func.WellFormed) {n : Nat} {s : State} (hs : t.Midway n [] s)
    {e : Edge} {rest : Queue Edge} (hq : s.edges.Takes e rest) :
    Meets (t.visitEdge e) { s with edges := rest } (fun _ => t.Midway (n + 1) [])
      (t.Stops (n + 1)) := by
  obtain ⟨b, hb⟩ := (hs.coherent wf).edge_block e (hq.mem_iff.mpr (Or.inl rfl))
  exact (Midway.passes wf (n + 1)).visitEdge wf hb (fun hv => .skip hs hq hv)
    (fun hv => Midway.enter (s := s) hs hq hv hb) (fun hv hw => Stops.enter (s := s) hs hq hv hw)

theorem Turn.meets (wf : t.func.WellFormed) {n : Nat} {s : State} (hs : t.Midway n [] s)
    {r : EStateM.Result Failure State Unit} (h : t.Turn s r) :
    (∀ s', r = .ok () s' → t.Midway (n + 1) [] s') ∧
      ∀ f s', r = .error f s' → t.Stops (n + 1) f s' := by
  cases h with
  | edge hq =>
    have hm := visitEdge_meets wf hs hq
    exact ⟨fun _ hr => hm.of_ok hr, fun _ _ hr => hm.of_error hr⟩
  | value hq =>
    have hc := (hs.coherent wf).taken hq
    obtain ⟨v, hv, -⟩ := (hs.coherent wf).ready_value _ (hq.mem_iff.mpr (Or.inl rfl))
    have hm := visitValue_meets wf hc.facts_length hv
    exact ⟨fun _ hr => .revisit hs hq hv (hm.of_ok hr),
      fun _ _ hr => .revisit hs hq hv (hm.of_error hr)⟩

theorem Reaches.midway (wf : t.func.WellFormed) {n : Nat} {s : State} (h : t.Reaches n s) :
    t.Midway n [] s := by
  induction h with
  | begin h => exact .begin h
  | turn hs hturn ih => exact (hturn.meets wf ih).1 _ rfl

theorem Returns.midway (wf : t.func.WellFormed) {s : State} (h : t.Returns s) :
    ∃ n last, t.Midway n [] last ∧ last.edges.toList = [] ∧ last.ready.toList = [] ∧
      s = { last with journal := .done last.stats :: last.journal } := by
  obtain ⟨n, last, hlast, he, hr, hdone⟩ := h
  refine ⟨n, last, hlast.midway wf, last.edges.isEmpty_iff.mp he, last.ready.isEmpty_iff.mp hr, ?_⟩
  have hm : Meets (t.emit (.done last.stats)) last
      (fun _ s' => s' = { last with journal := .done last.stats :: last.journal })
      (fun _ _ => True) := by
    rw [meets_emit]
    split_ifs
    rfl
  exact hm.of_ok hdone

end Task

end TypeFlow
