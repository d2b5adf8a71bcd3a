import TypeFlow.Proofs.GraphLabels

/-! Nothing is missing when an accepted function is analysed and shown: every number that a run, a
listing, a drawing or a trace looks up names something, and nothing is taken from an empty queue. A
run fails only where it is meant to. -/

namespace TypeFlow

namespace Func.Finished

variable {fn : Func}

/-- A listing is there if all comments are. -/
theorem exists_annotated (h : fn.Finished) {notes : Notes}
    (hnotes : ∀ id v, fn.value? id = some v → ∃ comment, notes.value v = some comment) :
    ∃ text, fn.annotated? notes = some text := by
  refine ⟨_, h.annotated?_eq notes (fun v => (notes.value v).getD []) fun v hv => ?_⟩
  obtain ⟨comment, hcomment⟩ := hnotes v.id v (h.value?_of_mem hv)
  rw [hcomment]
  rfl

end Func.Finished

namespace Solution

variable {fn : Func} {s : Solution}

theorem exists_listing (h : fn.Finished) (hlen : s.facts.length = fn.values.length) :
    ∃ text, s.listing? fn = some text := by
  refine h.exists_annotated fun id v hv => ?_
  obtain ⟨f, hf⟩ := exists_fact hlen hv
  obtain rfl := h.wellFormed.value_id hv
  by_cases hshow : v.op.hasOutput = true ∧ s.isReachable v.block = true <;>
    simp [notes, hv, hf, hshow]

theorem exists_graph (h : fn.Finished) (hlen : s.facts.length = fn.values.length) :
    ∃ text, s.graph? fn = some text := by
  obtain ⟨title, nodes, tail, hdrawn⟩ := exists_drawn h hlen
  exact ⟨_, hdrawn.graph⟩

end Solution

namespace Task

variable {t : Task}

/-- Everything that was recorded can be written to a trace. -/
def Traceable (t : Task) (s : State) : Prop :=
  ∀ event ∈ s.journal, ∃ line, event.traceLine? t.func = some line

namespace Traceable

theorem evaluated (h : t.func.Finished) {s s' : State} (hs : t.Traceable s) {id : ValueId}
    {v : Value} (hv : t.func.value? id = some v) (hrec : s.Records v.id s') :
    t.Traceable s' := by
  obtain ⟨new, hj, hnew⟩ := hrec
  have hid := h.wellFormed.value_id hv
  intro event hm
  rw [hj, List.mem_append] at hm
  rcases hm with hm | hm
  · rcases hnew event hm with rfl | ⟨name, old, f, rfl⟩
    · simp [Event.traceLine?, hid, hv, h.valueText?_eq (mem_of_lookup hv)]
    · simp [Event.traceLine?, hid, h.valueName?_eq hv]
  · exact hs event hm

theorem entered (wf : t.func.WellFormed) {n : Nat} {s : State} (hm : t.Midway n [] s)
    (hs : t.Traceable s) {e : Edge} {rest : Queue Edge} (hq : s.edges.Takes e rest) :
    t.Traceable (({ s with edges := rest } : State).entered e) := by
  have hmem := hq.mem_iff.mpr (Or.inl rfl)
  obtain ⟨dst, hdst⟩ := (hm.coherent wf).edge_block e hmem
  refine List.forall_mem_cons.mpr ⟨?_, hs⟩
  by_cases hno : e.src = noBlock
  · simp [Event.traceLine?, hdst, hno]
  · -- The edge is not the one that enters the function, so its source has a terminator.
    have hsource : ∃ src, t.func.block? e.src = some src := by
      rcases (hm.controlled wf).source (Or.inr hmem) with rfl | ⟨-, v, hterm, -⟩
      · exact absurd rfl hno
      · obtain ⟨src, hsrc, -⟩ := wf.terminator hterm
        exact ⟨src, hsrc⟩
    obtain ⟨src, hsrc⟩ := hsource
    simp [Event.traceLine?, hdst, hno, hsrc]

theorem recorded {s : State} (hs : t.Traceable s) {event : Event}
    (he : ∃ line, event.traceLine? t.func = some line) :
    t.Traceable { s with journal := event :: s.journal } :=
  List.forall_mem_cons.mpr ⟨he, hs⟩

end Traceable

theorem Midway.traceable (h : t.func.Finished) {n : Nat} {todo : List ValueId} {s : State}
    (hm : t.Midway n todo s) : t.Traceable s := by
  induction hm with
  | begin hb =>
    obtain rfl := begin_eq hb
    intro event he
    obtain rfl := List.mem_singleton.mp he
    exact ⟨[], rfl⟩
  | skip hm hq hv ih => exact ih
  | enter hm hq hv hb ih => exact ih.entered h.wellFormed hm hq
  | visit hm hv he ih => exact ih.evaluated h hv he.records
  | revisit hm hq hv he ih => exact Traceable.evaluated h ih hv he.records

theorem Stops.traceable (h : t.func.Finished) {n : Nat} {f : Failure} {s : State}
    (hs : t.Stops n f s) : t.Traceable s := by
  cases hs with
  | enter hm hq hv hw => exact (hm.traceable h).entered h.wellFormed hm hq
  | visit hm hv hb => exact (hm.traceable h).evaluated h hv hb.records
  | revisit hm hq hv hb => exact Traceable.evaluated h (hm.traceable h) hv hb.records

theorem Occurs.traceable (h : t.func.Finished) {s : State} (hs : t.Occurs s) : t.Traceable s := by
  refine hs.of_midway h.wellFormed ?_ (fun _ _ _ hs => hs.recorded ⟨[], rfl⟩)
    (fun _ _ hs => hs.recorded ⟨[], rfl⟩) (·.traceable h) (·.traceable h)
  intro event he
  cases he

/-- The same task with its events written to a trace. -/
def traced (t : Task) : Task := ⟨t.func, t.options.traced t.func⟩

theorem Deliberate.of_traced {f : Failure} {s : State} (hs : t.Traceable s)
    (h : t.traced.Deliberate f s) : t.Deliberate f s := by
  cases h with
  | unhandled => exact .unhandled
  | ascent hcheck => exact .ascent hcheck
  | @refused event earlier s hj hw =>
    obtain ⟨line, hline⟩ := hs event (by simp [hj])
    refine .refused hj ?_
    simpa [traced, Options.watch_traced, hline] using hw

/-- Whatever is looked up when an accepted function is analysed and shown is there. The function
has a listing, and a result has a listing and a drawing; every event of a run can be written to a
trace; runs in any order fail only where they are meant to, and so does the analysis, which may also
be cut off by its limit; and writing the trace makes no run fail. -/
theorem index_safety (hfn : t.func.Accepted) :
    (∃ text, t.func.listing? = some text) ∧
    (∀ s, t.Returns s → (∃ text, s.listing? t.func = some text) ∧
      ∃ text, s.graph? t.func = some text) ∧
    (∀ s, t.Occurs s → ∀ event ∈ s.journal, ∃ line, event.traceLine? t.func = some line) ∧
    (∀ f s, t.Aborts f s → t.Deliberate f s) ∧
    (∀ limit f, (t.analyze limit).failure = some f →
      f = .unsettled ∨ t.Deliberate f (t.analyze limit).state) ∧
    (∀ f s, t.traced.Aborts f s → t.Deliberate f s) := by
  have h := hfn.built.finished
  have wf := h.wellFormed
  refine ⟨⟨_, h.listing?_eq⟩, fun s hs => ?_, fun s hs => hs.traceable h,
    fun f s hs => hs.deliberate wf, fun limit f hf => ?_, fun f s hs => ?_⟩
  · obtain ⟨n, last, hlast, -, -, rfl⟩ := hs.midway wf
    have hlen := (hlast.coherent wf).facts_length
    exact ⟨Solution.exists_listing h hlen, Solution.exists_graph h hlen⟩
  · rcases aborts_of_analyze hf with ⟨hcut, -⟩ | habort
    · exact Or.inl hcut
    · exact Or.inr (habort.deliberate wf)
  · have htrace : t.traced.Traceable s :=
      Occurs.traceable (t := t.traced) h (Or.inr (Or.inr ⟨f, hs⟩))
    exact Deliberate.of_traced htrace (hs.deliberate (t := t.traced) wf)

/-- The loop has a drawing, and its return a line in the trace. -/
theorem index_safety_counting :
    counting.func.Accepted ∧ (∃ text, (counting.analyze 40).state.graph? .counting = some text) ∧
      ∃ line, Event.traceLine? .counting (.eval 5) = some line := by
  obtain ⟨-, hshown, htrace, -⟩ := index_safety (t := counting) Func.counting_accepted
  exact ⟨Func.counting_accepted, (hshown _ counting_returns).2,
    htrace _ (Or.inr (Or.inl counting_returns)) (.eval 5) (by decide +kernel)⟩

end Task

end TypeFlow
