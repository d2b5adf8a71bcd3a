import Mathlib.Data.List.Forall2
import TypeFlow.Proofs.Answering
import TypeFlow.Proofs.GreatestSolution

/-! The fact of a φ-node in closed form. Facts arrive along the visited edges in the order in which
the φ-node lists them, and only those before the first unknown one are compared. Where nothing
unknown arrives, the order does not matter and the fact is the meet of all that does. -/

namespace TypeFlow

namespace Fact

/-- What a φ-node makes of the facts that arrive. Of those before the first unknown one two may
differ, and then the φ-node has no single fact. Otherwise it waits for the unknown one, or has the
fact that all of them are. -/
def joined (arriving : List Fact) : Fact :=
  let first := arriving.idxOf top
  if ∃ a ∈ arriving.take first, ∃ b ∈ arriving.take first, a ≠ b then bottom
  else if first < arriving.length ∨ arriving = [] then top
  else arriving.headD top

theorem joined_nil : joined [] = top := by decide

theorem joined_singleton {a : Fact} (ha : a ≠ top) : joined [a] = a := by
  simp [joined, List.idxOf_cons_ne, ha]

theorem joined_top_cons (l : List Fact) : joined (top :: l) = top := by
  simp [joined]

theorem joined_cons_top {a : Fact} (ha : a ≠ top) (l : List Fact) :
    joined (a :: top :: l) = top := by
  simp [joined, List.idxOf_cons_ne, ha]

theorem joined_cons_of_ne {a b : Fact} (ha : a ≠ top) (hb : b ≠ top) (hne : b ≠ a) (l : List Fact) :
    joined (a :: b :: l) = bottom := by
  have hconflict : ∃ x ∈ (a :: b :: l).take ((a :: b :: l).idxOf top),
      ∃ y ∈ (a :: b :: l).take ((a :: b :: l).idxOf top), x ≠ y := by
    rw [List.idxOf_cons_ne _ ha, List.idxOf_cons_ne _ hb]
    exact ⟨b, by simp, a, by simp, hne⟩
  exact if_pos hconflict

theorem joined_cons_self {a : Fact} (ha : a ≠ top) (l : List Fact) :
    joined (a :: a :: l) = joined (a :: l) := by
  simp [joined, List.idxOf_cons_ne, ha]

theorem foldlM_apply (l : List Fact) (c : Fact) :
    l.foldlM lattice.apply c = .ok (l.foldl meet c) := by
  induction l generalizing c with
  | nil => rfl
  | cons a l ih =>
    rw [List.foldlM_cons, lattice_lawful.apply_eq]
    exact ih (meet c a)

end Fact

namespace Solution

variable {s s' : Solution}

/-- The edges of a φ-node that were visited. -/
def liveEdges (s : Solution) (phi : Value) : List Incoming :=
  phi.edges.filter fun i => s.isVisited ⟨i.pred, phi.block⟩

/-- The facts that arrive at a φ-node along its visited edges, in order, unless one of them is that
of a value which does not exist. -/
def arriving? (s : Solution) (phi : Value) : Option (List Fact) :=
  (s.liveEdges phi).mapM fun i => s.operand? i.arg

theorem arriving_cons {block : BlockId} {i : Incoming} {edges : List Incoming}
    (hv : s.isVisited ⟨i.pred, block⟩ = true) {arriving : List Fact}
    (h : ((i :: edges).filter fun i => s.isVisited ⟨i.pred, block⟩).mapM (fun i => s.operand? i.arg)
      = some arriving) :
    ∃ f rest, arriving = f :: rest ∧ s.operand? i.arg = some f ∧
      (edges.filter fun i => s.isVisited ⟨i.pred, block⟩).mapM (fun i => s.operand? i.arg)
        = some rest := by
  simp only [List.filter_cons, hv, if_true, List.mapM_cons] at h
  obtain ⟨f, hf, h⟩ := Option.bind_eq_some_iff.mp h
  obtain ⟨rest, hrest, h⟩ := Option.bind_eq_some_iff.mp h
  exact ⟨f, rest, (Option.some.inj h).symm, hf, hrest⟩

/-- A known fact of the edges before counts as one that arrived first. -/
theorem meetIncoming?_eq_joined {block : BlockId} {edges : List Incoming} (cur : Fact)
    {arriving : List Fact}
    (h : (edges.filter fun i => s.isVisited ⟨i.pred, block⟩).mapM (fun i => s.operand? i.arg)
      = some arriving) :
    s.meetIncoming? block cur edges =
      some (Fact.joined (if cur = Fact.top then arriving else cur :: arriving)) := by
  induction edges generalizing cur arriving with
  | nil =>
    obtain rfl : [] = arriving := Option.some.inj h
    by_cases hcur : cur = Fact.top
    · rw [if_pos hcur, Fact.joined_nil, hcur]
      rfl
    · rw [if_neg hcur, Fact.joined_singleton hcur]
      rfl
  | cons i edges ih =>
    unfold meetIncoming?
    by_cases hv : s.isVisited ⟨i.pred, block⟩ = true
    swap
    · simp only [List.filter_cons, hv] at h
      rw [if_neg hv]
      exact ih cur h
    obtain ⟨f, rest, rfl, hf, hrest⟩ := arriving_cons hv h
    simp only [if_pos hv, hf]
    by_cases htop : f = Fact.top
    · rw [if_pos htop, htop]
      split_ifs with hcur
      · rw [Fact.joined_top_cons]
      · rw [Fact.joined_cons_top hcur]
    have hnext := ih f hrest
    rw [if_neg htop] at hnext
    by_cases hcur : cur = Fact.top
    · rw [if_neg htop, if_pos hcur, if_pos hcur, hnext]
    by_cases hne : f ≠ cur
    · rw [if_neg htop, if_neg hcur, if_pos hne, if_neg hcur, Fact.joined_cons_of_ne hcur htop hne]
    · obtain rfl : f = cur := not_not.mp hne
      rw [if_neg htop, if_neg hcur, if_neg hne, if_neg hcur, hnext, Fact.joined_cons_self hcur]

theorem phiFact?_eq_joined {phi : Value} {arriving : List Fact}
    (h : s.arriving? phi = some arriving) : s.phiFact? phi = some (Fact.joined arriving) :=
  meetIncoming?_eq_joined Fact.top h

theorem arriving_eq {phi : Value} {arriving : List Fact} (h : s.arriving? phi = some arriving) :
    arriving = (s.liveEdges phi).map fun i => i.arg.fact s.assignment := by
  unfold arriving? at h
  generalize s.liveEdges phi = edges at h ⊢
  induction edges generalizing arriving with
  | nil => exact (Option.some.inj h).symm
  | cons i edges ih =>
    rw [List.mapM_cons] at h
    obtain ⟨f, hf, h⟩ := Option.bind_eq_some_iff.mp h
    obtain ⟨rest, hrest, h⟩ := Option.bind_eq_some_iff.mp h
    obtain rfl : f :: rest = arriving := Option.some.inj h
    rw [List.map_cons, operand?_eq_some hf, ih hrest]

theorem feeds_of_arriving {phi : Value} {arriving : List Fact}
    (h : s.arriving? phi = some arriving) (htop : Fact.top ∉ arriving) : s.Feeds phi := by
  intro i hi hv heq
  rw [arriving_eq h] at htop
  exact htop (List.mem_map.mpr ⟨i, List.mem_filter.mpr ⟨hi, hv⟩, heq⟩)

/-- Where nothing unknown arrives, a φ-node has the greatest lower bound of what does. -/
theorem le_joined_iff {phi : Value} {arriving : List Fact} (h : s.arriving? phi = some arriving)
    (htop : Fact.top ∉ arriving) {f : Fact} :
    f ≤ Fact.joined arriving ↔ ∀ a ∈ arriving, f ≤ a := by
  rw [le_phiFact?_iff (feeds_of_arriving h htop) (phiFact?_eq_joined h), arriving_eq h]
  simp only [List.forall_mem_map, liveEdges, List.mem_filter, and_imp]

theorem joined_eq_foldl_meet {phi : Value} {arriving : List Fact}
    (h : s.arriving? phi = some arriving) (htop : Fact.top ∉ arriving) :
    Fact.joined arriving = arriving.foldl Fact.meet Fact.top := by
  refine eq_of_forall_le_iff fun f => ?_
  rw [le_joined_iff h htop, le_foldl_meet]
  simp only [Fact.le_top, true_and]

/-- The same facts arrive, whatever the order of the edges. -/
theorem exists_arriving_of_perm {phi : Value} {arriving : List Fact}
    (h : s.arriving? phi = some arriving) {edges : List Incoming} (hp : edges.Perm phi.edges) :
    ∃ arriving', s.arriving? { phi with edges := edges } = some arriving' ∧
      arriving'.Perm arriving := by
  have hlive : (s.liveEdges { phi with edges := edges }).Perm (s.liveEdges phi) := hp.filter _
  cases h' : s.arriving? { phi with edges := edges } with
  | none =>
    obtain ⟨i, hi, hnone⟩ := mapM_eq_none_iff.mp h'
    have hsame : s.arriving? phi = none := mapM_eq_none_iff.mpr ⟨i, hlive.mem_iff.mp hi, hnone⟩
    rw [hsame] at h
    cases h
  | some arriving' =>
    refine ⟨arriving', rfl, ?_⟩
    rw [arriving_eq h, arriving_eq h']
    exact hlive.map _

theorem joined_eq_of_perm {phi : Value} {arriving arriving' : List Fact}
    (h : s.arriving? phi = some arriving) (htop : Fact.top ∉ arriving) {edges : List Incoming}
    (h' : s.arriving? { phi with edges := edges } = some arriving')
    (hp : arriving'.Perm arriving) : Fact.joined arriving' = Fact.joined arriving := by
  have htop' : Fact.top ∉ arriving' := fun hm => htop (hp.mem_iff.mp hm)
  refine eq_of_forall_le_iff fun f => ?_
  rw [le_joined_iff h htop, le_joined_iff h' htop']
  simp only [hp.mem_iff]

theorem assignment_le_of_forall₂ (h : List.Forall₂ (fun f f' => f' ≤ f) s.facts s'.facts)
    (id : ValueId) : s'.assignment id ≤ s.assignment id := by
  unfold assignment fact? lookup
  split
  · exact le_rfl
  · by_cases hlt : id.toNat < s.facts.length
    · have hlt' : id.toNat < s'.facts.length := h.length_eq ▸ hlt
      rw [List.getElem?_eq_getElem hlt, List.getElem?_eq_getElem hlt']
      exact h.get hlt hlt'
    · have hge' : s'.facts.length ≤ id.toNat := h.length_eq ▸ Nat.le_of_not_lt hlt
      rw [List.getElem?_eq_none (Nat.le_of_not_lt hlt), List.getElem?_eq_none hge']

/-- More edges and lower facts only lower what a φ-node has, as long as nothing unknown arrives. -/
theorem joined_anti {phi : Value} {arriving arriving' : List Fact}
    (h : s.arriving? phi = some arriving) (htop : Fact.top ∉ arriving)
    (h' : s'.arriving? phi = some arriving') (htop' : Fact.top ∉ arriving')
    (hvisit : ∀ e, s.isVisited e = true → s'.isVisited e = true)
    (hfacts : List.Forall₂ (fun f f' => f' ≤ f) s.facts s'.facts) :
    Fact.joined arriving' ≤ Fact.joined arriving := by
  have hle := (le_joined_iff h' htop').mp le_rfl
  rw [le_joined_iff h htop]
  intro a ha
  rw [arriving_eq h] at ha
  obtain ⟨i, hi, rfl⟩ := List.mem_map.mp ha
  obtain ⟨hi, hv⟩ := List.mem_filter.mp hi
  have harrives : i.arg.fact s'.assignment ∈ arriving' := by
    rw [arriving_eq h']
    exact List.mem_map.mpr ⟨i, List.mem_filter.mpr ⟨hi, hvisit _ hv⟩, rfl⟩
  exact (hle _ harrives).trans (i.arg.fact_mono (assignment_le_of_forall₂ hfacts))

end Solution

namespace Task

theorem evalPhi_eq {s : State} {phi : Value} {arriving : List Fact}
    (h : s.arriving? phi = some arriving) : evalPhi phi s = .ok (Fact.joined arriving) s := by
  have hm : Meets (evalPhi phi) s (fun f s' => f = Fact.joined arriving ∧ s' = s)
      (fun _ _ => False) := evalPhi_meets (Solution.phiFact?_eq_joined h) ⟨rfl, rfl⟩
  exact hm.eq_ok

/-- What a φ-node evaluates to, and that this changes nothing. Where nothing unknown arrives it is
the meet of what does, it does not depend on the order of the edges, and more visited edges and
lower facts can only lower it. -/
theorem evalPhi_exact {s : State} {phi : Value} {arriving : List Fact}
    (h : s.arriving? phi = some arriving) :
    evalPhi phi s = .ok (Fact.joined arriving) s ∧
    (Fact.top ∉ arriving →
      arriving.foldlM Fact.lattice.apply Fact.top = .ok (Fact.joined arriving) ∧
      (∀ edges : List Incoming, edges.Perm phi.edges →
        evalPhi { phi with edges := edges } s = evalPhi phi s) ∧
      ∀ (s' : State) (arriving' : List Fact), s'.arriving? phi = some arriving' →
        Fact.top ∉ arriving' → (∀ e, s.isVisited e = true → s'.isVisited e = true) →
        List.Forall₂ (fun f f' => f' ≤ f) s.facts s'.facts →
        ∃ f', evalPhi phi s' = .ok f' s' ∧ f' ≤ Fact.joined arriving) := by
  refine ⟨evalPhi_eq h, fun htop => ⟨?_, ?_, ?_⟩⟩
  · rw [Fact.foldlM_apply, Solution.joined_eq_foldl_meet h htop]
  · intro edges hp
    obtain ⟨arriving', h', hperm⟩ := Solution.exists_arriving_of_perm h hp
    rw [evalPhi_eq h, evalPhi_eq h', Solution.joined_eq_of_perm h htop h' hperm]
  · intro s' arriving' h' htop' hvisit hfacts
    exact ⟨_, evalPhi_eq h', Solution.joined_anti h htop h' htop' hvisit hfacts⟩

/-- A φ-node with three edges, over the last of which a literal flows in. -/
def crossing : Value where
  id := 2
  block := 3
  op := .phi
  edges := [⟨1, .value 0⟩, ⟨2, .value 1⟩, ⟨0, .literal (.ofInt 7)⟩]

/-- The first value of the φ-node is known to be an integer. -/
def crossed (second : Fact) (visited : List Edge) : State where
  facts := [.ofType .i32, second, .top]
  reachable := {}
  visited := visited
  stats := {}

/-- Before its second edge is visited, over which nothing is known to flow yet, the φ-node has the
integer of the other two in either order. A pointer that flows in over the second edge lowers
that. -/
theorem evalPhi_exact_crossing :
    let s := crossed .top [⟨1, 3⟩, ⟨0, 3⟩]
    let s' := crossed (.ofType .ptr) [⟨1, 3⟩, ⟨2, 3⟩, ⟨0, 3⟩]
    s.arriving? crossing = some [.ofType .i32, .ofType .i32] ∧
      s'.arriving? crossing = some [.ofType .i32, .ofType .ptr, .ofType .i32] ∧
      evalPhi crossing s = .ok (.ofType .i32) s ∧
      evalPhi { crossing with edges := crossing.edges.reverse } s = .ok (.ofType .i32) s ∧
      ∃ f', evalPhi crossing s' = .ok f' s' ∧ f' ≤ .ofType .i32 := by
  intro s s'
  have h : s.arriving? crossing = some [.ofType .i32, .ofType .i32] := by decide
  have h' : s'.arriving? crossing = some [.ofType .i32, .ofType .ptr, .ofType .i32] := by decide
  obtain ⟨heval, hknown⟩ := evalPhi_exact h
  obtain ⟨-, hperm, hanti⟩ := hknown (by decide)
  have hvisit : ∀ e, s.isVisited e = true → s'.isVisited e = true := by
    intro e he
    simp only [s, s', crossed, Solution.isVisited, List.contains_iff_mem] at he ⊢
    exact List.cons_subset_cons _ (List.subset_cons_self _ _) he
  refine ⟨h, h', heval, (hperm _ (List.reverse_perm _)).trans heval,
    hanti s' _ h' (by decide) hvisit ?_⟩
  exact .cons le_rfl (.cons (Fact.le_top _) (.cons le_rfl .nil))

example : Fact.joined [.ofType .i32, .ofType .f64, .top] = .bottom ∧
    Fact.joined [.top, .ofType .i32, .ofType .f64] = .top := by decide

end Task

end TypeFlow
