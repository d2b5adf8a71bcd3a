import TypeFlow.Proofs.Deque

/-! The runs of the solver, whatever the order. In a run the next item may come from anywhere in
either queue. The main loop, which takes the oldest or the newest item and empties one queue before
it turns to the other, goes through one of these runs. -/

namespace TypeFlow

namespace Queue

variable {α : Type}

/-- Taking `x` from somewhere in a queue leaves `rest`. -/
def Takes (q : Queue α) (x : α) (rest : Queue α) : Prop :=
  ∃ before after, q.toList = before ++ x :: after ∧ rest.toList = before ++ after

theorem Takes.perm {q rest : Queue α} {x : α} (h : q.Takes x rest) :
    q.toList.Perm (x :: rest.toList) := by
  obtain ⟨before, after, hq, hr⟩ := h
  rw [hq, hr]
  exact List.perm_middle

theorem Takes.mem_iff {q rest : Queue α} {x y : α} (h : q.Takes x rest) :
    y ∈ q.toList ↔ y = x ∨ y ∈ rest.toList := by
  rw [h.perm.mem_iff, List.mem_cons]

theorem Takes.length {q rest : Queue α} {x : α} (h : q.Takes x rest) :
    q.length = rest.length + 1 := by
  have hp := h.perm.length_eq
  rwa [List.length_cons, length_toList, length_toList] at hp

theorem pop?_takes [Inhabited α] {q rest : Queue α} {x : α} {order : Order}
    (h : q.pop? order = some (x, rest)) : q.Takes x rest := by
  have htaken := q.pop?_eq order
  rw [h] at htaken
  exact split_of_taken? htaken.symm

theorem isEmpty_of_pop? [Inhabited α] {q : Queue α} {order : Order} (h : q.pop? order = none) :
    q.isEmpty = true :=
  q.isEmpty_iff.mpr ((pop?_eq_none_iff order).mp h)

end Queue

/-- Done in `s`, an action ends with an answer and a state of which `Q` holds, or it fails and `E`
holds of the failure and the state that it leaves. -/
def Meets {α : Type} (x : Action α) (s : State) (Q : α → State → Prop)
    (E : Failure → State → Prop) : Prop :=
  match x s with
  | .ok a s' => Q a s'
  | .error f s' => E f s'

section Meets

variable {α β : Type} {s : State} {E : Failure → State → Prop}

theorem Meets.intro {x : Action α} {Q : α → State → Prop}
    (hok : ∀ a s', x s = .ok a s' → Q a s') (herror : ∀ f s', x s = .error f s' → E f s') :
    Meets x s Q E := by
  unfold Meets
  split
  · next hx => exact hok _ _ hx
  · next hx => exact herror _ _ hx

theorem Meets.of_ok {x : Action α} {Q : α → State → Prop} {a : α} {s' : State}
    (h : Meets x s Q E) (hx : x s = .ok a s') : Q a s' := by
  simpa only [Meets, hx] using h

theorem Meets.of_error {x : Action α} {Q : α → State → Prop} {f : Failure} {s' : State}
    (h : Meets x s Q E) (hx : x s = .error f s') : E f s' := by
  simpa only [Meets, hx] using h

theorem Meets.eq_ok {x : Action α} {a : α} {s' : State}
    (h : Meets x s (fun b s'' => b = a ∧ s'' = s') (fun _ _ => False)) : x s = .ok a s' := by
  unfold Meets at h
  split at h
  · next hx => rw [hx, h.1, h.2]
  · exact h.elim

theorem Meets.mono {x : Action α} {Q Q' : α → State → Prop} {E' : Failure → State → Prop}
    (h : Meets x s Q E) (hQ : ∀ a s', Q a s' → Q' a s') (hE : ∀ f s', E f s' → E' f s') :
    Meets x s Q' E' :=
  .intro (fun _ _ hx => hQ _ _ (h.of_ok hx)) (fun _ _ hx => hE _ _ (h.of_error hx))

@[simp] theorem meets_pure {a : α} {Q : α → State → Prop} :
    Meets (pure a : Action α) s Q E ↔ Q a s := Iff.rfl

@[simp] theorem meets_throw {f : Failure} {Q : α → State → Prop} :
    Meets (throw f : Action α) s Q E ↔ E f s := Iff.rfl

@[simp] theorem meets_bind {x : Action α} {f : α → Action β} {Q : β → State → Prop} :
    Meets (x >>= f) s Q E ↔ Meets x s (fun a s' => Meets (f a) s' Q E) E := by
  simp only [Meets, bind, EStateM.bind]
  cases x s <;> rfl

@[simp] theorem meets_get {Q : State → State → Prop} :
    Meets (get : Action State) s Q E ↔ Q s s := Iff.rfl

@[simp] theorem meets_set {s' : State} {Q : PUnit → State → Prop} :
    Meets (set s' : Action PUnit) s Q E ↔ Q ⟨⟩ s' := Iff.rfl

@[simp] theorem meets_modify {f : State → State} {Q : PUnit → State → Prop} :
    Meets (modify f : Action PUnit) s Q E ↔ Q ⟨⟩ (f s) := Iff.rfl

@[simp] theorem meets_need_some {a : α} {Q : α → State → Prop} :
    Meets (Task.need (some a)) s Q E ↔ Q a s := Iff.rfl

/-- What holds with the whole list ahead and is handed on by every element holds in the end. -/
theorem meets_forM {f : β → Action PUnit} {I : List β → State → Prop}
    (step : ∀ x rest s, I (x :: rest) s → Meets (f x) s (fun _ => I rest) E) {l : List β}
    (h : I l s) : Meets (l.forM f) s (fun _ => I []) E := by
  induction l generalizing s with
  | nil => exact h
  | cons x l ih =>
    change Meets (f x >>= fun _ => l.forM f) s _ _
    rw [meets_bind]
    exact (step x l s h).mono (fun _ _ h' => ih h') (fun _ _ h' => h')

end Meets

namespace Task

def begin (t : Task) : Action Unit := do
  t.emit (.start t.func.blocks.length t.func.values.length)
  pushEdge t.entryEdge

/-- What comes of taking any one of the items that wait in `s`. -/
inductive Turn (t : Task) (s : State) : EStateM.Result Failure State Unit → Prop
  | edge {e : Edge} {rest : Queue Edge} (h : s.edges.Takes e rest) :
    t.Turn s (t.visitEdge e { s with edges := rest })
  | value {id : ValueId} {rest : Queue ValueId} (h : s.ready.Takes id rest) :
    t.Turn s (t.visitValue id { s with ready := rest, pending := s.pending.erase id })

/-- Some run is in `s` after it has taken `n` items. -/
inductive Reaches (t : Task) : Nat → State → Prop
  | begin {s : State} (h : t.begin (.initial t.func) = .ok () s) : t.Reaches 0 s
  | turn {n : Nat} {s s' : State} (hs : t.Reaches n s) (h : t.Turn s (.ok () s')) :
    t.Reaches (n + 1) s'

/-- Some run ends in `s`, with nothing left to take. -/
def Returns (t : Task) (s : State) : Prop :=
  ∃ n last, t.Reaches n last ∧ last.edges.isEmpty = true ∧ last.ready.isEmpty = true ∧
    t.emit (.done last.stats) last = .ok () s

/-- Some run fails and leaves the state `s`. -/
inductive Aborts (t : Task) : Failure → State → Prop
  | begin {f : Failure} {s : State} (h : t.begin (.initial t.func) = .error f s) : t.Aborts f s
  | turn {n : Nat} {f : Failure} {s s' : State} (hs : t.Reaches n s)
    (h : t.Turn s (.error f s')) : t.Aborts f s'
  | done {n : Nat} {f : Failure} {s s' : State} (hs : t.Reaches n s)
    (he : s.edges.isEmpty = true) (hr : s.ready.isEmpty = true)
    (h : t.emit (.done s.stats) s = .error f s') : t.Aborts f s'

/-- What comes of one step of the main loop, be it that the step takes any of the items that wait in
the queue of its phase. -/
inductive Picks (t : Task) (s : State) :
    Phase → EStateM.Result Failure State (Option Phase) → Prop
  | edge {e : Edge} {rest : Queue Edge} {s' : State} (hq : s.edges.Takes e rest)
    (h : t.visitEdge e { s with edges := rest } = .ok () s') :
    t.Picks s .edges (.ok (some .edges) s')
  | edgeFails {e : Edge} {rest : Queue Edge} {f : Failure} {s' : State} (hq : s.edges.Takes e rest)
    (h : t.visitEdge e { s with edges := rest } = .error f s') : t.Picks s .edges (.error f s')
  | turn (he : s.edges.isEmpty = true) : t.Picks s .edges (.ok (some .values) s)
  | value {id : ValueId} {rest : Queue ValueId} {s' : State} (hq : s.ready.Takes id rest)
    (h : t.visitValue id { s with ready := rest, pending := s.pending.erase id } = .ok () s') :
    t.Picks s .values (.ok (some .values) s')
  | valueFails {id : ValueId} {rest : Queue ValueId} {f : Failure} {s' : State}
    (hq : s.ready.Takes id rest)
    (h : t.visitValue id { s with ready := rest, pending := s.pending.erase id } = .error f s') :
    t.Picks s .values (.error f s')
  | again (hr : s.ready.isEmpty = true) (he : ¬ s.edges.isEmpty = true) :
    t.Picks s .values (.ok (some .edges) s)
  | finish (hr : s.ready.isEmpty = true) (he : s.edges.isEmpty = true) :
    t.Picks s .values (.ok none s)

variable {t : Task}

/-- The step that the main loop does is one of these. -/
theorem step_picks (t : Task) (phase : Phase) (s : State) :
    Meets (t.step phase) s (fun next s' => t.Picks s phase (.ok next s'))
      (fun f s' => t.Picks s phase (.error f s')) := by
  cases phase with
  | edges =>
    simp only [step, meets_bind, meets_get]
    split
    · next he => exact .turn he
    next hne =>
    simp only [popEdge, meets_bind, meets_get]
    split
    · next hp => exact absurd (Queue.isEmpty_of_pop? hp) hne
    next e rest hp =>
    simp only [meets_bind, meets_modify, meets_pure]
    exact .intro (fun _ _ hv => .edge (Queue.pop?_takes hp) hv)
      (fun _ _ hv => .edgeFails (Queue.pop?_takes hp) hv)
  | values =>
    simp only [step, meets_bind, meets_get]
    split
    · next hr =>
      simp only [meets_bind, meets_get, meets_pure]
      by_cases he : s.edges.isEmpty = true
      · rw [if_pos he]
        exact .finish hr he
      · rw [if_neg he]
        exact .again hr he
    next hne =>
    simp only [popValue, meets_bind, meets_get]
    split
    · next hp => exact absurd (Queue.isEmpty_of_pop? hp) hne
    next id rest hp =>
    simp only [meets_bind, meets_modify, meets_pure]
    exact .intro (fun _ _ hv => .value (Queue.pop?_takes hp) hv)
      (fun _ _ hv => .valueFails (Queue.pop?_takes hp) hv)

/-- A step of the main loop takes an item, or turns to the other queue because its own is empty, or
finds nothing left to take. -/
theorem step_meets {n : Nat} {s : State} (h : t.Reaches n s) (phase : Phase) :
    Meets (t.step phase) s
      (fun next s' => match next with
        | none => s' = s ∧ s.edges.isEmpty = true ∧ s.ready.isEmpty = true
        | some phase' => phase' = phase ∧ t.Reaches (n + 1) s' ∨
          phase' ≠ phase ∧ s' = s ∧ (phase = .edges ↔ s.edges.isEmpty = true))
      (fun f s' => t.Aborts f s') := by
  refine (t.step_picks phase s).mono (fun next s' hpick => ?_) (fun f s' hpick => ?_)
  · cases hpick with
    | edge hq hv => exact Or.inl ⟨rfl, h.turn (hv ▸ .edge hq)⟩
    | turn he => exact Or.inr ⟨by simp, rfl, by simp [he]⟩
    | value hq hv => exact Or.inl ⟨rfl, h.turn (hv ▸ .value hq)⟩
    | again hr he => exact Or.inr ⟨by simp, rfl, by simp [he]⟩
    | finish hr he => exact ⟨rfl, he, hr⟩
  · cases hpick with
    | edgeFails hq hv => exact .turn h (hv ▸ .edge hq)
    | valueFails hq hv => exact .turn h (hv ▸ .value hq)

/-- How many steps go by before the main loop takes an item or ends. -/
def idle (phase : Phase) (s : State) : Nat :=
  if phase = .edges ↔ s.edges.isEmpty = true then 1 else 0

theorem idle_le (phase : Phase) (s : State) : idle phase s ≤ 1 := by
  unfold idle
  split <;> omega

theorem idle_flip {phase phase' : Phase} {s : State} (hne : phase' ≠ phase)
    (h : phase = .edges ↔ s.edges.isEmpty = true) : idle phase s = 1 ∧ idle phase' s = 0 := by
  unfold idle
  rw [if_pos h]
  cases phase <;> cases phase' <;> simp_all

/-- The main loop goes on for at most two steps an item. -/
theorem loop_meets (limit : Nat) (phase : Phase) {n : Nat} {s : State} (h : t.Reaches n s) :
    Meets (t.loop limit phase) s
      (fun _ s' => ∃ m, t.Reaches m s' ∧ s'.edges.isEmpty = true ∧ s'.ready.isEmpty = true)
      (fun f s' => (f = .unsettled ∧ ∃ m s₁, t.Reaches m s₁ ∧
        limit + 2 * n ≤ 2 * m + idle phase s) ∨ t.Aborts f s') := by
  induction limit generalizing phase n s with
  | zero => exact Or.inl ⟨rfl, n, s, h, by omega⟩
  | succ limit ih =>
    simp only [loop, meets_bind]
    refine (step_meets h phase).mono ?_ (fun f s' hf => Or.inr hf)
    intro next s' hs'
    cases next with
    | none =>
      obtain ⟨rfl, he, hr⟩ := hs'
      exact ⟨n, h, he, hr⟩
    | some phase' =>
      rcases hs' with ⟨rfl, hturn⟩ | ⟨hne, rfl, hflip⟩
      · refine (ih phase' hturn).mono (fun _ _ hm => hm) ?_
        rintro f s₂ (⟨hf, m, s₁, hm, hle⟩ | hf)
        · have := idle_le phase' s'
          exact Or.inl ⟨hf, m, s₁, hm, by omega⟩
        · exact Or.inr hf
      · refine (ih phase' h).mono (fun _ _ hm => hm) ?_
        rintro f s₂ (⟨hf, m, s₁, hm, hle⟩ | hf)
        · obtain ⟨h₁, h₀⟩ := idle_flip hne hflip
          exact Or.inl ⟨hf, m, s₁, hm, by omega⟩
        · exact Or.inr hf

theorem run_eq (t : Task) (limit : Nat) : t.run limit = (do
    t.begin
    t.loop limit .edges
    t.emit (.done (← get).stats)) := by
  simp only [run, begin, bind_assoc]

theorem run_meets (t : Task) (limit : Nat) :
    Meets (t.run limit) (.initial t.func) (fun _ s => t.Returns s)
      (fun f s => (f = .unsettled ∧ ∃ n s₁, t.Reaches n s₁ ∧ limit ≤ 2 * n + 1) ∨
        t.Aborts f s) := by
  rw [run_eq, meets_bind]
  refine .intro (fun _ s hb => ?_) (fun _ _ hb => Or.inr (.begin hb))
  simp only [meets_bind, meets_get]
  refine (loop_meets limit .edges (.begin hb)).mono ?_ ?_
  · rintro _ last ⟨m, hm, he, hr⟩
    exact .intro (fun _ _ hd => ⟨m, last, hm, he, hr, hd⟩)
      (fun _ _ hd => Or.inr (.done hm he hr hd))
  · rintro f s' (⟨hf, m, s₁, hm, hle⟩ | hf)
    · have := idle_le .edges s
      exact Or.inl ⟨hf, m, s₁, hm, by omega⟩
    · exact Or.inr hf

theorem analyze_meets {limit : Nat} {Q : Unit → State → Prop} {E : Failure → State → Prop}
    (h : Meets (t.run limit) (.initial t.func) Q E) :
    ((t.analyze limit).failure = none → Q () (t.analyze limit).state) ∧
      ∀ f, (t.analyze limit).failure = some f → E f (t.analyze limit).state := by
  unfold Meets at h
  unfold analyze
  split <;> simp_all [EStateM.run]

theorem returns_of_analyze {limit : Nat} (h : (t.analyze limit).failure = none) :
    t.Returns (t.analyze limit).state :=
  (analyze_meets (t.run_meets limit)).1 h

/-- An analysis that fails is the failure of a run, unless its limit was too small for a run. -/
theorem aborts_of_analyze {limit : Nat} {f : Failure} (h : (t.analyze limit).failure = some f) :
    (f = .unsettled ∧ ∃ n s, t.Reaches n s ∧ limit ≤ 2 * n + 1) ∨
      t.Aborts f (t.analyze limit).state :=
  (analyze_meets (t.run_meets limit)).2 f h

end Task

end TypeFlow
