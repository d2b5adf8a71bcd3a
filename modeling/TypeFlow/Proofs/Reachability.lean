import Mathlib.Data.List.Perm.Basic
import Mathlib.Logic.Relation
import TypeFlow.Proofs.Midway

/-! Reachability is exact: a run that ends has reached the blocks to which control can get from the
entry, and has visited the edges on which control gets there. -/

namespace TypeFlow

namespace Func

/-- Control that is followed goes from one block to the other: along jumps always, along branches
only when asked for. -/
def Follows (fn : Func) (branch : Bool) (b c : BlockId) : Prop :=
  ∃ v, fn.terminator? b = some v ∧ c ∈ v.targets ∧ (v.op = .jmp ∨ v.op = .br ∧ branch = true)

/-- Control gets to a block from the entry. -/
abbrev Live (fn : Func) (branch : Bool) : BlockId → Prop :=
  Relation.ReflTransGen (fn.Follows branch) fn.entry

variable {fn : Func}

theorem WellFormed.blocks_nodup (wf : fn.WellFormed) : (fn.blocks.map (·.id)).Nodup := by
  have hid : ∀ k (hk : k < fn.blocks.length), fn.blocks[k].id = (k : Int) := fun k hk =>
    wf.block_id (by rw [block?, lookup_natCast, List.getElem?_eq_getElem hk])
  refine List.pairwise_iff_getElem.mpr fun i j hi hj hij heq => ?_
  rw [List.length_map] at hi hj
  rw [List.getElem_map, List.getElem_map, hid i hi, hid j hj] at heq
  exact Nat.ne_of_lt hij (Int.ofNat_inj.mp heq)

theorem WellFormed.terminator (wf : fn.WellFormed) {b : BlockId} {v : Value}
    (h : fn.terminator? b = some v) :
    ∃ blk, fn.block? b = some blk ∧ v.id ∈ blk.instrs ∧ fn.value? v.id = some v ∧
      v.block = b := by
  obtain ⟨blk, hblk, hlast⟩ := Option.bind_eq_some_iff.mp h
  obtain ⟨id, hid, hv⟩ := Option.bind_eq_some_iff.mp hlast
  have hm := List.mem_of_getLast? hid
  obtain ⟨w, hw, -, hb⟩ := wf.instr_value hblk hm
  obtain rfl : w = v := Option.some.inj (hw.symm.trans hv)
  have he := wf.value_id hv
  exact ⟨blk, hblk, he ▸ hm, he ▸ hv, hb⟩

theorem WellFormed.live_block (wf : fn.WellFormed) {branch : Bool} {b : BlockId}
    (h : fn.Live branch b) : ∃ blk, fn.block? b = some blk := by
  cases h with
  | refl => exact wf.entry_block
  | tail _ hf =>
    obtain ⟨v, hv, hc, -⟩ := hf
    obtain ⟨_, -, -, hval, -⟩ := wf.terminator hv
    exact wf.target_block hval hc

/-- An entry, a loop, its exit, and a block that nothing leads to. -/
def counting : Func :=
  (ofCalls? "counting" [.block "entry", .block "loop", .block "exit", .block "lost",
    .setBlock 0, .jmp 1,
    .setBlock 1, .phi [⟨0, .literal (.ofBool true)⟩, ⟨1, .value 1⟩],
    .phi [⟨0, .literal (.ofInt 0)⟩, ⟨1, .value 3⟩], .emit .addI32 [.value 2, .value 2],
    .br (.value 1) 1 2,
    .setBlock 2, .ret [.value 2],
    .setBlock 3, .jmp 2]).get (by decide +kernel)

theorem counting_accepted : counting.Accepted :=
  Or.inl (built_of_ofCalls? (Option.some_get _).symm)

end Func

namespace Task

variable {t : Task}

abbrev Follows (t : Task) : BlockId → BlockId → Prop :=
  t.func.Follows t.options.branchSuccessors

theorem mem_exits {v : Value} {e : Edge} :
    e ∈ v.jumps ++ t.branches v ↔ e.src = v.block ∧ e.dst ∈ v.targets ∧
      (v.op = .jmp ∨ v.op = .br ∧ t.options.branchSuccessors = true) := by
  have hmap : e ∈ v.targets.map (fun target => (⟨v.block, target⟩ : Edge)) ↔
      e.src = v.block ∧ e.dst ∈ v.targets := by
    rw [List.mem_map]
    constructor
    · rintro ⟨c, hc, rfl⟩
      exact ⟨rfl, hc⟩
    · rintro ⟨hsrc, hdst⟩
      exact ⟨e.dst, hdst, by rw [← hsrc]⟩
  rw [List.mem_append]
  by_cases hj : v.op = .jmp
  · simp [Value.jumps, branches, hj, hmap]
  · by_cases hb : v.op = .br ∧ t.options.branchSuccessors = true
    · simp [Value.jumps, branches, hb, hmap]
    · simp [Value.jumps, branches, hj, hb]

theorem follows_of_mem_exits (wf : t.func.WellFormed) {id : ValueId} {v : Value}
    (hv : t.func.value? id = some v) {e : Edge} (he : e ∈ v.jumps ++ t.branches v) :
    e.src = v.block ∧ t.Follows e.src e.dst := by
  obtain ⟨hsrc, hdst, hop⟩ := mem_exits.mp he
  refine ⟨hsrc, v, ?_, hdst, hop⟩
  rw [hsrc]
  rcases hop with hop | ⟨hop, -⟩
  · exact wf.terminal hv (by simp [Value.isPhi, hop]) (by simp [hop, Opcode.targetCount])
  · exact wf.terminal hv (by simp [Value.isPhi, hop]) (by simp [hop, Opcode.targetCount])

/-- What a run knows about control while the values `todo` are still to be evaluated. -/
structure Controlled (t : Task) (todo : List ValueId) (s : State) : Prop where
  source : ∀ {e}, s.isVisited e = true ∨ e ∈ s.edges.toList →
    e = t.entryEdge ∨ s.isReachable e.src = true ∧ t.Follows e.src e.dst
  reachable_iff : ∀ {b}, s.isReachable b = true ↔ ∃ e, s.isVisited e = true ∧ e.dst = b
  live : ∀ {b}, s.isReachable b = true → t.func.Live t.options.branchSuccessors b
  entry : s.isVisited t.entryEdge = true ∨ t.entryEdge ∈ s.edges.toList
  /-- No edge out of a reachable block is forgotten. -/
  exits : ∀ {e}, s.isReachable e.src = true → t.Follows e.src e.dst →
    s.isVisited e = true ∨ e ∈ s.edges.toList ∨
      ∃ v, t.func.terminator? e.src = some v ∧ v.id ∈ todo
  nodup : s.visited.Nodup

namespace Controlled

theorem begin {s : State} (h : t.begin (.initial t.func) = .ok () s) : t.Controlled [] s := by
  obtain rfl := begin_eq h
  refine ⟨?_, ?_, ?_, ?_, ?_, ?_⟩ <;>
    simp [State.initial, Solution.isVisited, Solution.isReachable]

theorem skip {s : State} (h : t.Controlled [] s) {e : Edge} {rest : Queue Edge}
    (hq : s.edges.Takes e rest) (hv : s.isVisited e = true) :
    t.Controlled [] { s with edges := rest } where
  source he := h.source (he.imp_right fun hm => hq.mem_iff.mpr (Or.inr hm))
  reachable_iff := h.reachable_iff
  live := h.live
  entry := by
    rcases h.entry with he | he
    · exact Or.inl he
    · rcases hq.mem_iff.mp he with rfl | hm
      · exact Or.inl hv
      · exact Or.inr hm
  exits hr hf := by
    rcases h.exits hr hf with he | he | ⟨v, -, hm⟩
    · exact Or.inl he
    · rcases hq.mem_iff.mp he with rfl | hm
      · exact Or.inl hv
      · exact Or.inr (Or.inl hm)
    · cases hm
  nodup := h.nodup

theorem enter (wf : t.func.WellFormed) {s : State} (h : t.Controlled [] s) {e : Edge}
    {rest : Queue Edge} {b : Block} (hq : s.edges.Takes e rest) (hv : s.isVisited e = false)
    (hb : t.func.block? e.dst = some b) :
    t.Controlled (if s.isReachable e.dst then b.phis else b.members)
      (({ s with edges := rest } : State).entered e) := by
  have hreach := State.isReachable_entered { s with edges := rest } e
  have hvisit := State.isVisited_entered { s with edges := rest } e
  have hsource := h.source (Or.inr (hq.mem_iff.mpr (Or.inl rfl)))
  have hlive : t.func.Live t.options.branchSuccessors e.dst := by
    rcases hsource with he | ⟨hr, hf⟩
    · rw [he]
      exact .refl
    · exact (h.live hr).tail hf
  refine ⟨?_, ?_, ?_, ?_, ?_, ?_⟩
  · intro e' he'
    have hold : e' = t.entryEdge ∨ s.isReachable e'.src = true ∧ t.Follows e'.src e'.dst := by
      rcases he' with he' | he'
      · rcases (hvisit e').mp he' with rfl | he'
        · exact hsource
        · exact h.source (Or.inl he')
      · exact h.source (Or.inr (hq.mem_iff.mpr (Or.inr he')))
    exact hold.imp_right fun ⟨hr, hf⟩ => ⟨(hreach _).mpr (Or.inr hr), hf⟩
  · intro c
    rw [hreach]
    constructor
    · rintro (rfl | hr)
      · exact ⟨e, (hvisit e).mpr (Or.inl rfl), rfl⟩
      · obtain ⟨e', he', hd⟩ := h.reachable_iff.mp hr
        exact ⟨e', (hvisit e').mpr (Or.inr he'), hd⟩
    · rintro ⟨e', he', rfl⟩
      rcases (hvisit e').mp he' with rfl | he'
      · exact Or.inl rfl
      · exact Or.inr (h.reachable_iff.mpr ⟨e', he', rfl⟩)
  · intro c hc
    rcases (hreach c).mp hc with rfl | hr
    · exact hlive
    · exact h.live hr
  · rcases h.entry with he | he
    · exact Or.inl ((hvisit _).mpr (Or.inr he))
    · rcases hq.mem_iff.mp he with he | hm
      · exact Or.inl ((hvisit _).mpr (Or.inl he))
      · exact Or.inr hm
  · intro e' hr hf
    by_cases hold : s.isReachable e'.src = true
    · rcases h.exits hold hf with he | he | ⟨v, -, hm⟩
      · exact Or.inl ((hvisit _).mpr (Or.inr he))
      · rcases hq.mem_iff.mp he with he | hm
        · exact Or.inl ((hvisit _).mpr (Or.inl he))
        · exact Or.inr (Or.inl hm)
      · cases hm
    · -- The block is new, so its terminator is among the members to come.
      have hsrc : e'.src = e.dst := by
        rcases (hreach _).mp hr with he | hr
        · exact he
        · exact absurd hr hold
      obtain ⟨v, hterm, -⟩ := hf
      obtain ⟨blk, hblk, hm, -⟩ := wf.terminator hterm
      rw [hsrc] at hblk hold
      obtain rfl : blk = b := Option.some.inj (hblk.symm.trans hb)
      refine Or.inr (Or.inr ⟨v, hterm, ?_⟩)
      rw [if_neg hold]
      exact List.mem_append_right _ hm
  · refine List.nodup_cons.mpr ⟨fun hm => ?_, h.nodup⟩
    simp [Solution.isVisited, hm] at hv

/-- Nothing is visited, and the edges that are added come from terminators done with. -/
theorem grow {todo todo' : List ValueId} {s s' : State} {new : List Edge}
    (h : t.Controlled todo s) (hvisited : s'.visited = s.visited)
    (hreachable : s'.reachable = s.reachable)
    (hedges : s'.edges.toList = s.edges.toList ++ new)
    (hnew : ∀ e ∈ new, s.isReachable e.src = true ∧ t.Follows e.src e.dst)
    (htodo : ∀ e v, t.func.terminator? e.src = some v → t.Follows e.src e.dst → v.id ∈ todo →
      v.id ∈ todo' ∨ e ∈ new) : t.Controlled todo' s' := by
  have hr : ∀ b, s'.isReachable b = s.isReachable b := fun b => by
    simp only [Solution.isReachable, hreachable]
  have hv : ∀ e, s'.isVisited e = s.isVisited e := fun e => by
    simp only [Solution.isVisited, hvisited]
  refine ⟨?_, ?_, ?_, ?_, ?_, by rw [hvisited]; exact h.nodup⟩
  · intro e he
    rw [hr]
    rw [hv, hedges, List.mem_append, ← or_assoc] at he
    rcases he with he | he
    · exact h.source he
    · exact Or.inr (hnew e he)
  · intro b
    simp only [hr, hv]
    exact h.reachable_iff
  · intro b hb
    exact h.live ((hr b).symm.trans hb)
  · rw [hv, hedges, List.mem_append]
    exact h.entry.imp_right Or.inl
  · intro e he hf
    rw [hr] at he
    rw [hv, hedges, List.mem_append]
    rcases h.exits he hf with hm | hm | ⟨v, hterm, hm⟩
    · exact Or.inl hm
    · exact Or.inr (Or.inl (Or.inl hm))
    · rcases htodo e v hterm hf hm with hm | hm
      · exact Or.inr (Or.inr ⟨v, hterm, hm⟩)
      · exact Or.inr (Or.inl (Or.inr hm))

theorem isVisited_iff {s : State} (h : t.Controlled [] s) (hedges : s.edges.toList = [])
    {e : Edge} : s.isVisited e = true ↔
      e = t.entryEdge ∨ s.isReachable e.src = true ∧ t.Follows e.src e.dst := by
  constructor
  · exact fun hv => h.source (Or.inl hv)
  · rintro (rfl | ⟨hr, hf⟩)
    · simpa [hedges] using h.entry
    · simpa [hedges] using h.exits hr hf

/-- Once no edge waits, every block that control gets to has been reached. -/
theorem isReachable_iff {s : State} (h : t.Controlled [] s) (hedges : s.edges.toList = [])
    {b : BlockId} : s.isReachable b = true ↔ t.func.Live t.options.branchSuccessors b := by
  refine ⟨h.live, fun hlive => ?_⟩
  induction hlive with
  | refl => exact h.reachable_iff.mpr ⟨_, (h.isVisited_iff hedges).mpr (Or.inl rfl), rfl⟩
  | tail _ hf ih =>
    exact h.reachable_iff.mpr ⟨⟨_, _⟩, (h.isVisited_iff hedges).mpr (Or.inr ⟨ih, hf⟩), rfl⟩

end Controlled

theorem Midway.controlled (wf : t.func.WellFormed) {n : Nat} {todo : List ValueId} {s : State}
    (h : t.Midway n todo s) : t.Controlled todo s := by
  induction h with
  | begin h => exact .begin h
  | skip hs hq hv ih => exact ih.skip hq hv
  | enter hs hq hv hb ih => exact ih.enter wf hq hv hb
  | @visit n id todo v s s' hs hv he ih =>
    have hr := (hs.coherent wf).todo_reachable hv
    have hedges : (s'.edges.pushAll (t.branches v)).toList =
        s.edges.toList ++ (v.jumps ++ t.branches v) := by
      rw [Queue.toList_pushAll, he.effect.edges, List.append_assoc]
    refine ih.grow he.effect.visited he.effect.reachable hedges ?_ ?_
    · intro e hm
      obtain ⟨hsrc, hf⟩ := follows_of_mem_exits wf hv hm
      exact ⟨hsrc ▸ hr, hf⟩
    · intro e u hterm hf hm
      rcases List.mem_cons.mp hm with hid | hm
      · obtain ⟨x, hx, hdst, hop⟩ := hf
        obtain rfl : x = u := Option.some.inj (hx.symm.trans hterm)
        obtain ⟨-, -, -, hval, hblock⟩ := wf.terminator hterm
        obtain rfl : x = v := Option.some.inj (hval.symm.trans (hid ▸ hv))
        exact Or.inr (mem_exits.mpr ⟨hblock.symm, hdst, hop⟩)
      · exact Or.inl hm
  | @revisit n id rest v s s' hs hq hv he ih =>
    have hr := ((hs.coherent wf).ready_reachable hq hv).1
    refine ih.grow he.effect.visited he.effect.reachable he.effect.edges ?_
      (fun _ _ _ _ hm => Or.inl hm)
    intro e hm
    obtain ⟨hsrc, hf⟩ := follows_of_mem_exits (t := t) wf hv (List.mem_append_left _ hm)
    exact ⟨hsrc ▸ hr, hf⟩

theorem Returns.controlled (wf : t.func.WellFormed) {s : State} (h : t.Returns s) :
    t.Controlled [] s ∧ s.edges.toList = [] := by
  obtain ⟨n, last, hlast, he, -, rfl⟩ := h.midway wf
  obtain ⟨h₁, h₂, h₃, h₄, h₅, h₆⟩ := hlast.controlled wf
  exact ⟨⟨h₁, h₂, h₃, h₄, h₅, h₆⟩, he⟩

theorem Returns.isVisited_iff (wf : t.func.WellFormed) {s : State} (h : t.Returns s) {e : Edge} :
    s.isVisited e = true ↔
      e = t.entryEdge ∨ s.isReachable e.src = true ∧ t.Follows e.src e.dst :=
  (h.controlled wf).1.isVisited_iff (h.controlled wf).2

theorem Returns.isReachable_iff (wf : t.func.WellFormed) {s : State} (h : t.Returns s)
    {b : BlockId} :
    s.isReachable b = true ↔ t.func.Live t.options.branchSuccessors b :=
  (h.controlled wf).1.isReachable_iff (h.controlled wf).2

def counting : Task := ⟨.counting, {}⟩

theorem counting_returns : counting.Returns (counting.analyze 40).state :=
  returns_of_analyze (by decide +kernel)

/-- A run that ends has reached exactly the blocks that control gets to and visited exactly the
edges that control takes, and the two lists of blocks share out the blocks of the function. -/
theorem reachability_exact {s : State} (hfn : t.func.Accepted) (h : t.Returns s) :
    (∀ b, s.isReachable b = true ↔ t.func.Live t.options.branchSuccessors b) ∧
      (∀ e, s.isVisited e = true ↔ e = ⟨noBlock, t.func.entry⟩ ∨
        t.func.Live t.options.branchSuccessors e.src ∧
          t.func.Follows t.options.branchSuccessors e.src e.dst) ∧
      (s.reachable.elems ++ s.unreachable t.func).Nodup ∧
      (s.reachable.elems ++ s.unreachable t.func).Perm (t.func.blocks.map (·.id)) := by
  have wf := hfn.wellFormed
  have hreach : ∀ b, s.isReachable b = true ↔ t.func.Live t.options.branchSuccessors b :=
    fun b => h.isReachable_iff wf
  have hnodup : (s.reachable.elems ++ s.unreachable t.func).Nodup := by
    refine List.nodup_append.mpr ⟨s.reachable.nodup, wf.blocks_nodup.filter _, ?_⟩
    rintro b hb _ hu rfl
    have hr : s.isReachable b = true := by simpa [Solution.isReachable, IntSet.contains] using hb
    simp [Solution.unreachable, hr] at hu
  refine ⟨hreach, fun e => ?_, hnodup, ?_⟩
  · rw [← hreach]
    exact h.isVisited_iff wf
  · refine (List.perm_ext_iff_of_nodup hnodup wf.blocks_nodup).mpr fun b => ?_
    have hlisted : s.isReachable b = true → b ∈ t.func.blocks.map (·.id) := fun hr => by
      obtain ⟨blk, hblk⟩ := wf.live_block ((hreach b).mp hr)
      exact List.mem_map.mpr ⟨blk, mem_of_lookup hblk, wf.block_id hblk⟩
    have helems : b ∈ s.reachable.elems ↔ s.isReachable b = true := by
      simp [Solution.isReachable, IntSet.contains]
    rw [List.mem_append, helems, Solution.unreachable, List.mem_filter]
    by_cases hr : s.isReachable b = true
    · simp only [hr, true_or, hlisted hr]
    · simp only [hr, false_or, Bool.not_false, and_true, Bool.false_eq_true]

/-- Control gets through the loop to the exit, and never to the lost block. -/
theorem reachability_exact_counting :
    counting.func.Accepted ∧ counting.Returns (counting.analyze 40).state ∧
      counting.func.Live true 2 ∧ ¬ counting.func.Live true 3 := by
  obtain ⟨hreach, -⟩ := reachability_exact Func.counting_accepted counting_returns
  exact ⟨Func.counting_accepted, counting_returns, (hreach 2).mp (by decide +kernel),
    fun hlive => absurd ((hreach 3).mpr hlive) (by decide +kernel)⟩

end Task

end TypeFlow
