import TypeFlow.Proofs.Reachability

/-! The result is a fixpoint. Throughout a run every value of a reachable block has the fact that
the rest of the state gives it, unless it is queued or about to be evaluated. In the end nothing is
queued, so no change was lost. -/

namespace TypeFlow

namespace Task

variable {t : Task}

/-- No change is lost while the values `todo` are still to be evaluated. -/
structure Settled (t : Task) (todo : List ValueId) (s : State) : Prop where
  untouched : ∀ {id v}, t.func.value? id = some v → s.isReachable v.block = false →
    s.fact? id = some Fact.top
  current : ∀ {id v}, t.func.value? id = some v → s.isReachable v.block = true → id ∉ todo →
    id ∉ s.ready.toList → s.fact? id = s.valueFact? v ∧ t.rejects v = false

/-- A value that is not queued does not depend on what an evaluation has changed. -/
theorem Evaluates.valueFact?_eq (wf : t.func.WellFormed) {s s' : State} {v w : Value}
    {id id' : ValueId} (he : t.Evaluates v s s') (hq : s.Queued) (hv : t.func.value? id = some v)
    (hw : t.func.value? id' = some w) (hr : s.isReachable w.block = true)
    (hready : id' ∉ s'.ready.toList) : s'.valueFact? w = s.valueFact? w := by
  have hid := wf.value_id hv
  have hoperand : ∀ op ∈ w.operands, s'.operand? op = s.operand? op := by
    intro op hop
    cases op with
    | literal lit => rfl
    | value d =>
      by_cases hd : d = v.id
      · rw [hd]
        by_contra hne
        have hrefers : w.refersTo id = true := by
          rw [← hid, ← hd]
          exact List.contains_iff_mem.mpr hop
        have huse : (⟨id', w.block⟩ : Use) ∈ v.uses := (wf.uses_iff hv).mpr ⟨w, hw, rfl, hrefers⟩
        exact hready ((he.mem_ready hq id').mpr (Or.inr ⟨hne, _, huse, rfl, hr⟩))
      · exact he.effect.other hd
  exact Solution.valueFact?_congr
    (fun _ _ => he.effect.isVisited_eq _)
    (fun e hm => hoperand e.arg (List.mem_append_right _ (List.mem_map_of_mem hm)))

namespace Settled

theorem begin {s : State} (h : t.begin (.initial t.func) = .ok () s) : t.Settled [] s := by
  obtain rfl := begin_eq h
  constructor
  · intro id v hv _
    change lookup (t.func.values.map fun _ => Fact.top) id = _
    rw [lookup_map]
    exact congrArg (Option.map _) hv
  · intro id v _ hr
    cases hr

theorem enter (wf : t.func.WellFormed) {s : State} (h : t.Settled [] s) {e : Edge}
    {rest : Queue Edge} {b : Block} (hb : t.func.block? e.dst = some b) :
    t.Settled (if s.isReachable e.dst then b.phis else b.members)
      (({ s with edges := rest } : State).entered e) := by
  have hreach := State.isReachable_entered { s with edges := rest } e
  have hvisit := State.isVisited_entered { s with edges := rest } e
  constructor
  · intro id v hv hr
    refine h.untouched hv (Bool.eq_false_iff.mpr fun hold => ?_)
    exact Bool.eq_false_iff.mp hr ((hreach _).mpr (Or.inr hold))
  · intro id v hv hr htodo hready
    by_cases hnew : v.block = e.dst
    · -- A value of the block just entered is to be evaluated, unless it is an old instruction.
      obtain ⟨blk, hblk, hlisted⟩ := wf.listed hv
      obtain rfl : blk = b := Option.some.inj (hblk.symm.trans (hnew ▸ hb))
      by_cases hold : s.isReachable e.dst = true
      · rw [if_pos hold] at htodo
        have hp : v.isPhi = false :=
          Bool.eq_false_iff.mpr fun hp => htodo (by simpa [hp] using hlisted)
        obtain ⟨hf, hrej⟩ := h.current hv (hnew ▸ hold) List.not_mem_nil hready
        rw [Solution.valueFact?_of_not_isPhi hp] at hf ⊢
        exact ⟨hf, hrej⟩
      · rw [if_neg hold] at htodo
        exact absurd (wf.mem_members hv hblk) htodo
    · have hold : s.isReachable v.block = true := ((hreach _).mp hr).resolve_left hnew
      obtain ⟨hf, hrej⟩ := h.current hv hold List.not_mem_nil hready
      refine ⟨hf.trans (Eq.symm ?_), hrej⟩
      refine Solution.valueFact?_congr (fun i _ => ?_) (fun _ _ => rfl)
      have hne : (⟨i.pred, v.block⟩ : Edge) ≠ e := fun he => hnew (congrArg Edge.dst he)
      rw [Bool.eq_iff_iff, hvisit]
      exact ⟨fun hm => hm.resolve_left hne, Or.inr⟩

theorem evaluates (wf : t.func.WellFormed) {todo : List ValueId} {id : ValueId} {v : Value}
    {s s' : State} (h : t.Settled (id :: todo) s) (hq : s.Queued) (hv : t.func.value? id = some v)
    (hblock : s.isReachable v.block = true) (he : t.Evaluates v s s') : t.Settled todo s' := by
  have hid := wf.value_id hv
  have hreach := he.effect.isReachable_eq
  constructor
  · intro id' w hw hr
    rw [hreach] at hr
    have hne : id' ≠ v.id := by
      rintro rfl
      rw [hid, hv] at hw
      cases hw
      simp [hblock] at hr
    rw [he.effect.other hne]
    exact h.untouched hw hr
  · intro id' w hw hr htodo hready
    rw [hreach] at hr
    rw [he.valueFact?_eq wf hq hv hw hr hready]
    by_cases hne : id' = id
    · subst hne
      obtain rfl : w = v := Option.some.inj (hw.symm.trans hv)
      have hself := he.effect.self
      rw [hid] at hself
      exact ⟨hself, he.rejects_eq⟩
    · rw [he.effect.other (by rw [hid]; exact hne)]
      refine h.current hw hr (List.not_mem_cons_of_ne_of_not_mem hne htodo) fun hm => hready ?_
      exact (he.mem_ready hq id').mpr (Or.inl hm)

end Settled

theorem Midway.settled (wf : t.func.WellFormed) {n : Nat} {todo : List ValueId} {s : State}
    (h : t.Midway n todo s) : t.Settled todo s := by
  induction h with
  | begin h => exact .begin h
  | skip hs hq hv ih => exact ⟨ih.untouched, ih.current⟩
  | enter hs hq hv hb ih => exact ih.enter wf hb
  | @visit n id todo v s s' hs hv he ih =>
    have hc := hs.coherent wf
    obtain ⟨h₁, h₂⟩ := ih.evaluates wf hc.queued hv (hc.todo_reachable hv) he
    exact ⟨h₁, h₂⟩
  | @revisit n id rest v s s' hs hq hv he ih =>
    have hc := hs.coherent wf
    have htaken : t.Settled [id] (s.taken id rest) := by
      refine ⟨ih.untouched, fun hw' hr' hne hrest => ?_⟩
      refine ih.current hw' hr' List.not_mem_nil fun hm => ?_
      rcases hq.mem_iff.mp hm with rfl | hm
      · exact hne List.mem_cons_self
      · exact hrest hm
    exact htaken.evaluates wf (hc.queued.taken hq) hv (hc.ready_reachable hq hv).1 he

theorem Returns.settled (wf : t.func.WellFormed) {s : State} (h : t.Returns s) :
    t.Settled [] s ∧ s.ready.toList = [] := by
  obtain ⟨n, last, hlast, -, hr, rfl⟩ := h.midway wf
  obtain ⟨h₁, h₂⟩ := hlast.settled wf
  exact ⟨⟨h₁, h₂⟩, hr⟩

theorem Returns.fact?_eq (wf : t.func.WellFormed) {s : State} (h : t.Returns s) {id : ValueId}
    {v : Value} (hv : t.func.value? id = some v) (hr : s.isReachable v.block = true) :
    s.fact? id = s.valueFact? v ∧ t.rejects v = false := by
  obtain ⟨hs, hready⟩ := h.settled wf
  exact hs.current hv hr List.not_mem_nil (by simp [hready])

theorem Returns.exists_valueFact (wf : t.func.WellFormed) {s : State} (h : t.Returns s)
    {id : ValueId} {v : Value} (hv : t.func.value? id = some v) :
    ∃ f, s.valueFact? v = some f := by
  obtain ⟨n, last, hlast, -, -, rfl⟩ := h.midway wf
  exact Task.exists_valueFact wf (hlast.coherent wf).facts_length hv

/-- In the end, evaluating a value of a reachable block again would give the fact it has, and
nothing is known about the values of the other blocks. -/
theorem result_is_fixpoint {s : State} (hfn : t.func.Accepted) (h : t.Returns s) {id : ValueId}
    {v : Value} (hv : t.func.value? id = some v) :
    (s.isReachable v.block = true → v.isPhi = true →
      ∃ f, s.fact? id = some f ∧ evalPhi v s = .ok f s) ∧
    (s.isReachable v.block = true → v.isPhi = false →
      ∃ f, s.fact? id = some f ∧ ∀ s₀, ∃ s₁, t.transfer v s₀ = .ok f s₁) ∧
    (s.isReachable v.block = false → s.fact? id = some Fact.top) := by
  have wf := hfn.wellFormed
  obtain ⟨f, hf⟩ := h.exists_valueFact wf hv
  refine ⟨fun hr hp => ⟨f, (h.fact?_eq wf hv hr).1.trans hf, ?_⟩, fun hr hp => ?_,
    (h.settled wf).1.untouched hv⟩
  · rw [Solution.valueFact?, if_pos hp] at hf
    have hm : Meets (evalPhi v) s (fun g s' => g = f ∧ s' = s) (fun _ _ => False) :=
      evalPhi_meets hf ⟨rfl, rfl⟩
    exact hm.eq_ok
  · obtain ⟨hfact, hrej⟩ := h.fact?_eq wf hv hr
    rw [Solution.valueFact?_of_not_isPhi hp] at hfact
    exact ⟨v.op.fact, hfact, fun s₀ => ⟨_, transfer_eq wf hv hp hrej s₀⟩⟩

/-- The number that the loop carries is an integer after any number of turns. -/
theorem result_is_fixpoint_counting :
    counting.func.Accepted ∧ counting.Returns (counting.analyze 40).state ∧
      ∃ v, counting.func.value? 2 = some v ∧
        (counting.analyze 40).state.isReachable v.block = true ∧ v.isPhi = true ∧
        evalPhi v (counting.analyze 40).state =
          .ok (Fact.ofType .i32) (counting.analyze 40).state := by
  let v : Value :=
    { id := 2, block := 1, op := .phi, uses := [⟨3, 1⟩, ⟨5, 2⟩]
      edges := [⟨0, .literal (.ofInt 0)⟩, ⟨1, .value 3⟩] }
  have hv : counting.func.value? 2 = some v := by decide +kernel
  have hr : (counting.analyze 40).state.isReachable v.block = true := by decide +kernel
  have hfact : (counting.analyze 40).state.fact? 2 = some (Fact.ofType .i32) := by decide +kernel
  obtain ⟨hphi, -⟩ := result_is_fixpoint Func.counting_accepted counting_returns hv
  obtain ⟨f, hf, he⟩ := hphi hr rfl
  rw [Option.some.inj (hf.symm.trans hfact)] at he
  exact ⟨Func.counting_accepted, counting_returns, v, hv, hr, rfl, he⟩

end Task

end TypeFlow
