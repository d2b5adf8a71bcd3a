import TypeFlow.Proofs.Ascent
import TypeFlow.Proofs.GreatestSolution
import TypeFlow.Proofs.WorkBounds

/-! The events of a run tell its result. Events are recorded, counters raised and facts stored at
different points of a visit, and the run may fail between them, but whenever it stops the journal
accounts for all of the solution: nothing was counted that was not recorded, and nothing was
recorded that did not happen. -/

namespace TypeFlow

namespace IntSet

theorem mem_elems {s : IntSet} {x : Int} : x ∈ s.elems ↔ s.contains x = true :=
  List.contains_iff_mem.symm

theorem size_insert (s : IntSet) (x : Int) :
    (s.insert x).size = if s.contains x then s.size else s.size + 1 := by
  have hmem : ∀ y, y ∈ (s.insert x).elems ↔ y = x ∨ y ∈ s.elems := fun y => by
    simp [mem_elems]
  by_cases hx : s.contains x = true
  · rw [if_pos hx]
    refine ((List.perm_ext_iff_of_nodup (s.insert x).nodup s.nodup).mpr fun y => ?_).length_eq
    rw [hmem]
    refine or_iff_right_of_imp ?_
    rintro rfl
    exact mem_elems.mpr hx
  · rw [if_neg hx]
    have hnew : (x :: s.elems).Nodup := List.nodup_cons.mpr ⟨fun h => hx (mem_elems.mp h), s.nodup⟩
    refine ((List.perm_ext_iff_of_nodup (s.insert x).nodup hnew).mpr fun y => ?_).length_eq
    rw [hmem, List.mem_cons]

end IntSet

/-- Whether a number names a φ-node. -/
def Func.namesPhi (fn : Func) (id : ValueId) : Bool := (fn.value? id).any (·.isPhi)

namespace Event

def edge? : Event → Option Edge
  | edge e _ => some e
  | _ => none

def evaluated? : Event → Option ValueId
  | eval id => some id
  | _ => none

def isUpdate : Event → Bool
  | update .. => true
  | _ => false

/-- Every update of a journal, the latest event first, replaces the fact that the updates before it
have left by another one. -/
def Changing (journal : List Event) : Prop :=
  ∀ ⦃later earlier id name old new⦄, journal = later ++ update id name old new :: earlier →
    old = replay earlier id ∧ old ≠ new

theorem changing_nil : Changing [] := by
  intro later earlier id name old new h
  simp at h

theorem Changing.cons {journal : List Event} (h : Changing journal) {event : Event}
    (hnew : ∀ id name old new, event = update id name old new →
      old = replay journal id ∧ old ≠ new) : Changing (event :: journal) := by
  intro later earlier id name old new heq
  cases later with
  | nil =>
    obtain ⟨rfl, rfl⟩ := List.cons.inj heq
    exact hnew id name old new rfl
  | cons _ later => exact h (List.cons.inj heq).2

/-- What a journal, the latest event first, tells about a run on a function is what the run has
found out. -/
structure Tells (fn : Func) (journal : List Event) (s : Solution) : Prop where
  edges : journal.filterMap edge? = s.visited
  edges_nodup : (journal.filterMap edge?).Nodup
  edges_count : s.stats.edgesVisited = (journal.filterMap edge?).length
  reached : ∀ b, s.isReachable b = true ↔ ∃ e ∈ journal.filterMap edge?, e.dst = b
  reached_count : s.stats.blocksReached = s.reachable.size
  evals_count : s.stats.instrEvals + s.stats.phiEvals = (journal.filterMap evaluated?).length
  phis_count : s.stats.phiEvals = (journal.filterMap evaluated?).countP fn.namesPhi
  updates_count : s.stats.updates = journal.countP isUpdate
  changing : Changing journal
  facts : s.facts = fn.values.map fun v => replay journal v.id

namespace Tells

variable {fn : Func} {journal : List Event} {s s' : Solution}

/-- A journal leaves nothing about the solution open. -/
theorem unique (h : Tells fn journal s) (h' : Tells fn journal s') : s = s' := by
  obtain ⟨facts, reachable, visited, edges, blocks, instrs, phis, updates⟩ := s
  obtain ⟨facts', reachable', visited', edges', blocks', instrs', phis', updates'⟩ := s'
  obtain rfl : facts = facts' := h.facts.trans h'.facts.symm
  obtain rfl : visited = visited' := h.edges.symm.trans h'.edges
  obtain rfl : edges = edges' := h.edges_count.trans h'.edges_count.symm
  obtain rfl : phis = phis' := h.phis_count.trans h'.phis_count.symm
  obtain rfl : updates = updates' := h.updates_count.trans h'.updates_count.symm
  have hevals : instrs + phis = instrs' + phis := h.evals_count.trans h'.evals_count.symm
  obtain rfl : instrs = instrs' := by omega
  obtain rfl : reachable = reachable' := IntSet.ext_of_contains fun b =>
    Bool.eq_iff_iff.mpr ((h.reached b).trans (h'.reached b).symm)
  obtain rfl : blocks = blocks' := h.reached_count.trans h'.reached_count.symm
  rfl

theorem start (h : Tells fn journal s) (blocks values : Nat) :
    Tells fn (.start blocks values :: journal) s :=
  { h with changing := h.changing.cons (by simp) }

theorem done (h : Tells fn journal s) (stats : Stats) : Tells fn (.done stats :: journal) s :=
  { h with changing := h.changing.cons (by simp) }

end Tells

end Event

namespace State

/-- The journal of a state tells its solution. -/
abbrev Told (s : State) (fn : Func) : Prop := Event.Tells fn s.journal s.toSolution

namespace Told

variable {fn : Func} {s : State}

theorem initial (fn : Func) : (State.initial fn).Told fn where
  edges := rfl
  edges_nodup := .nil
  edges_count := rfl
  reached b := by simp [State.initial, Solution.isReachable]
  reached_count := rfl
  evals_count := rfl
  phis_count := rfl
  updates_count := rfl
  changing := Event.changing_nil
  facts := rfl

theorem entered (h : s.Told fn) {e : Edge} (hv : s.isVisited e = false) :
    (s.entered e).Told fn where
  edges := congrArg (e :: ·) h.edges
  edges_nodup := by
    have hnew : e ∉ s.journal.filterMap Event.edge? := by
      rw [h.edges]
      exact fun hm => by simp [Solution.isVisited, hm] at hv
    exact List.nodup_cons.mpr ⟨hnew, h.edges_nodup⟩
  edges_count := congrArg (· + 1) h.edges_count
  reached b := by
    have hedges : (s.entered e).journal.filterMap Event.edge? =
        e :: s.journal.filterMap Event.edge? := rfl
    rw [isReachable_entered, h.reached, hedges, List.exists_mem_cons_iff, eq_comm]
  reached_count := by
    change (if !s.isReachable e.dst then s.stats.blocksReached + 1 else s.stats.blocksReached) =
      (s.reachable.insert e.dst).size
    rw [IntSet.size_insert, h.reached_count]
    change _ = if s.isReachable e.dst = true then _ else _
    cases s.isReachable e.dst <;> rfl
  evals_count := h.evals_count
  phis_count := h.phis_count
  updates_count := h.updates_count
  changing := h.changing.cons (by simp)
  facts := h.facts

theorem evaluated (h : s.Told fn) {v : Value} (hv : fn.value? v.id = some v) :
    (s.evaluated v).Told fn where
  edges := h.edges
  edges_nodup := h.edges_nodup
  edges_count := (s.stats.edgesVisited_counted v).trans h.edges_count
  reached := h.reached
  reached_count := (s.stats.blocksReached_counted v).trans h.reached_count
  evals_count := (s.stats.evals_counted v).trans (congrArg (· + 1) h.evals_count)
  phis_count := by
    have hphi : fn.namesPhi v.id = v.isPhi := by simp [Func.namesPhi, hv]
    have hevals : (s.evaluated v).journal.filterMap Event.evaluated? =
        v.id :: s.journal.filterMap Event.evaluated? := rfl
    rw [hevals, List.countP_cons, hphi, ← h.phis_count]
    change (s.stats.counted v).phiEvals = _
    rw [Stats.phiEvals_counted]
  updates_count := (s.stats.updates_counted v).trans h.updates_count
  changing := h.changing.cons (by simp)
  facts := h.facts

theorem stored (wf : fn.WellFormed) (h : s.Told fn) {id : ValueId} {name : Text} {old new : Fact}
    (hold : s.fact? id = some old) (hne : old ≠ new) : (s.stored id name old new).Told fn where
  edges := h.edges
  edges_nodup := h.edges_nodup
  edges_count := h.edges_count
  reached := h.reached
  reached_count := h.reached_count
  evals_count := h.evals_count
  phis_count := h.phis_count
  updates_count := (congrArg (· + 1) h.updates_count).trans (List.countP_cons_of_pos rfl).symm
  changing := by
    refine h.changing.cons ?_
    rintro _ _ _ _ ⟨⟩
    refine ⟨?_, hne⟩
    rw [Solution.fact?, h.facts, lookup_map] at hold
    obtain ⟨v, hv, rfl⟩ := Option.map_eq_some_iff.mp hold
    rw [wf.value_id hv]
  facts := by
    change s.facts.set id.toNat new =
      fn.values.map fun v => if v.id = id then new else Event.replay s.journal v.id
    rw [h.facts]
    refine List.ext_getElem (by simp) fun k hk hk' => ?_
    rw [List.length_map] at hk'
    have hid : fn.values[k].id = (k : Int) :=
      wf.value_id (by rw [Func.value?, lookup_natCast, List.getElem?_eq_getElem hk'])
    have hpos := (lookup_bounds hold).1
    have hplace : id.toNat = k ↔ (k : Int) = id := by omega
    simp only [List.getElem_set, List.getElem_map, hid, hplace]

end Told

end State

namespace Task

variable {t : Task}

theorem Evaluates.told (wf : t.func.WellFormed) {id : ValueId} {v : Value} {s s' : State}
    (he : t.Evaluates v s s') (hv : t.func.value? id = some v) (h : s.Told t.func) :
    s'.Told t.func := by
  have heval : (s.evaluated v).Told t.func := h.evaluated (by rw [wf.value_id hv, hv])
  cases he with
  | same hr hf hold => exact heval
  | @change old new name hr hf hold hne hle =>
    obtain ⟨ready, pending, heq⟩ :=
      State.foldl_scheduled v.uses ((s.evaluated v).stored v.id name old new)
    rw [heq]
    exact heval.stored wf hold hne

theorem Midway.told (wf : t.func.WellFormed) {n : Nat} {todo : List ValueId} {s : State}
    (h : t.Midway n todo s) : s.Told t.func := by
  induction h with
  | begin h =>
    obtain rfl := begin_eq h
    exact (State.Told.initial t.func).start _ _
  | skip hm hq hv ih => exact ih
  | @enter n s e rest b hm hq hv hb ih =>
    exact State.Told.entered (s := { s with edges := rest }) ih hv
  | visit hm hv he ih => exact he.told wf hv ih
  | revisit hm hq hv he ih => exact he.told wf hv ih

/-- The last event of a journal is an evaluation that was refused before it was counted, and the
events before it tell the solution. -/
def Cut (t : Task) (s : State) : Prop :=
  ∃ id earlier, s.journal = .eval id :: earlier ∧ t.options.watch (.eval id) = false ∧
    Event.Tells t.func earlier s.toSolution

theorem Breaks.told (wf : t.func.WellFormed) {id : ValueId} {v : Value} {f : Failure}
    {s s' : State} (hb : t.Breaks v s f s') (hv : t.func.value? id = some v)
    (h : s.Told t.func) : s'.Told t.func ∨ f = .unobserved ∧ t.Cut s' := by
  have heval : (s.evaluated v).Told t.func := h.evaluated (by rw [wf.value_id hv, hv])
  cases hb with
  | evalUnseen hw => exact Or.inr ⟨rfl, v.id, s.journal, rfl, hw, h⟩
  | unhandled hr htarget hname => exact Or.inl heval
  | ascent hf hold hcheck hnle => exact Or.inl heval
  | updateUnseen hf hold hne hle hw => exact Or.inl (heval.stored wf hold hne)

theorem Stops.told (wf : t.func.WellFormed) {n : Nat} {f : Failure} {s : State}
    (h : t.Stops n f s) : s.Told t.func ∨ f = .unobserved ∧ t.Cut s := by
  cases h with
  | @enter n s e rest hm hq hv hw =>
    exact Or.inl (State.Told.entered (s := { s with edges := rest }) (hm.told wf) hv)
  | visit hm hv hb => exact hb.told wf hv (hm.told wf)
  | revisit hm hq hv hb => exact hb.told wf hv (hm.told wf)

theorem Aborts.told (wf : t.func.WellFormed) {f : Failure} {s : State} (h : t.Aborts f s) :
    s.Told t.func ∨ f = .unobserved ∧ t.Cut s := by
  rcases h.stops wf with ⟨n, h⟩ | ⟨-, event, last, -, rfl, ⟨rfl, rfl⟩ | ⟨rfl, n, hlast⟩⟩
  · exact h.told wf
  · exact Or.inl ((State.Told.initial t.func).start _ _)
  · exact Or.inl ((hlast.told wf).done _)

theorem Returns.told (wf : t.func.WellFormed) {s : State} (h : t.Returns s) :
    s.Told t.func := by
  obtain ⟨n, last, hlast, -, -, rfl⟩ := h.midway wf
  exact (hlast.told wf).done _

/-- Between two turns and at the end of a run, in whatever order items are taken, the events so far
tell the solution: the edges visited, each once, the blocks reached, the counts, and the facts,
which are what the updates lead to, each of them a change of the fact left by the one before. Only
an evaluation that is refused is recorded and not counted. Two solutions that the same events tell
are the same. -/
theorem events_tell_result (hfn : t.func.Accepted) :
    (∀ n s, t.Reaches n s → s.Told t.func) ∧
    (∀ s, t.Returns s → s.Told t.func) ∧
    (∀ f s, t.Aborts f s → f ≠ .unobserved → s.Told t.func) ∧
    (∀ s, t.Aborts .unobserved s → s.Told t.func ∨ t.Cut s) ∧
    (∀ limit, (t.analyze limit).failure ≠ some .unobserved →
      (t.analyze limit).failure ≠ some .unsettled → (t.analyze limit).state.Told t.func) ∧
    ∀ journal r r', Event.Tells t.func journal r → Event.Tells t.func journal r' → r = r' := by
  have wf := hfn.wellFormed
  have habort : ∀ f s, t.Aborts f s → f ≠ .unobserved → s.Told t.func := fun f s h hf =>
    (h.told wf).resolve_right fun hcut => hf hcut.1
  refine ⟨fun n s h => (h.midway wf).told wf, fun s h => h.told wf, habort,
    fun s h => (h.told wf).imp_right And.right, fun limit hseen hsettled => ?_,
    fun journal r r' h h' => h.unique h'⟩
  cases hf : (t.analyze limit).failure with
  | none => exact (returns_of_analyze hf).told wf
  | some f =>
    rw [hf] at hseen hsettled
    refine habort f _ ((aborts_of_analyze hf).resolve_left ?_) fun he => hseen (congrArg some he)
    exact fun hcut => hsettled (congrArg some hcut.1)

/-- The events of the loop tell what was found when its analysis ends, and those of the carousel
what was found until the check failed. -/
theorem events_tell_result_carousel :
    counting.func.Accepted ∧ counting.Returns (counting.analyze 40).state ∧
      (counting.analyze 40).state.Told .counting ∧
      carousel.func.Accepted ∧
      (∃ fault, carousel.Aborts (.lattice fault) (carousel.analyze 20).state) ∧
      (carousel.analyze 20).state.Told .carousel ∧
      (carousel.analyze 20).state.stats = ⟨3, 2, 2, 5, 4⟩ := by
  have hfail : (carousel.analyze 20).failure = some (.lattice (.ascent "carousel.v2"
      (Fact.ofType .i32) Fact.top (Fact.ofType .i32))) := by decide +kernel
  have habort := (aborts_of_analyze hfail).resolve_left fun h => by cases h.1
  obtain ⟨-, hreturns, -⟩ := events_tell_result (t := counting) Func.counting_accepted
  obtain ⟨-, -, haborts, -⟩ := events_tell_result (t := carousel) Func.carousel_accepted
  exact ⟨Func.counting_accepted, counting_returns, hreturns _ counting_returns,
    Func.carousel_accepted, ⟨_, habort⟩, haborts _ _ habort (by simp), by decide +kernel⟩

end Task

end TypeFlow
