import Mathlib.Data.List.Nodup
import Mathlib.Data.List.ProdSigma
import TypeFlow.Proofs.FactOrder
import TypeFlow.Proofs.ListingLines

/-! The drawing of a lattice, line by line: after the nodes stand the edges, one for each pair of
elements of which the first lies below the second. -/

namespace TypeFlow

namespace Text

theorem ofString_singleton (c : Char) :
    ofString (String.singleton c) = String.utf8EncodeChar c := by
  simp [ofString, String.toUTF8, String.toByteArray_singleton, List.utf8Encode_singleton]

/-- The bytes of a character from the space on are no control characters. -/
theorem le_of_mem_ofString_singleton {c : Char} (hc : 0x20 ≤ c.toNat) {b : UInt8}
    (hb : b ∈ ofString (String.singleton c)) : 0x20 ≤ b.toNat := by
  have hbytes : ∀ b ∈ String.utf8EncodeChar c, 0x20 ≤ b.toNat := by
    unfold String.utf8EncodeChar
    change 0x20 ≤ c.val.toNat at hc
    dsimp only
    generalize c.val.toNat = v at hc
    split_ifs <;> simp only [List.forall_mem_cons, UInt8.toNat_ofNat', List.not_mem_nil,
      false_imp_iff, implies_true, and_true] <;> omega
  rw [ofString_singleton] at hb
  exact hbytes b hb

theorem newline_not_mem_hex (width n : Nat) : ascii '\n' ∉ hex width n := by
  have hdigits : Number.AllDigits 16 (numeral 16 n) :=
    Number.allDigits_numeral (by decide) (by decide) n
  unfold hex padLeft
  rw [List.mem_append, not_or]
  exact ⟨fun h => absurd (List.eq_of_mem_replicate h) (by decide), hdigits.not_mem (by decide)⟩

theorem not_mem_ite {c : UInt8} {s t : Text} {p : Prop} [Decidable p] (hs : p → c ∉ s)
    (ht : ¬ p → c ∉ t) : c ∉ if p then s else t := by
  split
  · next h => exact hs h
  · next h => exact ht h

theorem newline_not_mem_escapeChar (c : Char) : ascii '\n' ∉ Quoted.escapeChar c := by
  have hhex : ∀ (mark : String) width, ascii '\n' ∉ ofString mark →
      ascii '\n' ∉ ofString mark ++ hex width c.toNat := by
    intro mark width hmark
    rw [List.mem_append, not_or]
    exact ⟨hmark, newline_not_mem_hex width c.toNat⟩
  have hshown : isPrintable c = true → ascii '\n' ∉ ofString (String.singleton c) := by
    intro hp hm
    have hc : 0x20 ≤ c.toNat := by
      unfold isPrintable at hp
      split at hp
      · simpa using hp
      · omega
    exact absurd (le_of_mem_ofString_singleton hc hm) (by decide)
  unfold Quoted.escapeChar
  refine not_mem_ite (fun _ => by decide) fun _ => ?_
  refine not_mem_ite (fun _ => by decide) fun _ => ?_
  refine not_mem_ite hshown fun _ => ?_
  refine not_mem_ite (fun _ => by decide) fun _ => ?_
  refine not_mem_ite (fun _ => by decide) fun _ => ?_
  refine not_mem_ite (fun _ => by decide) fun _ => ?_
  refine not_mem_ite (fun _ => by decide) fun _ => ?_
  refine not_mem_ite (fun _ => by decide) fun _ => ?_
  refine not_mem_ite (fun _ => by decide) fun _ => ?_
  refine not_mem_ite (fun _ => by decide) fun _ => ?_
  refine not_mem_ite (fun _ => hhex _ _ (by decide)) fun _ => ?_
  exact not_mem_ite (fun _ => hhex _ _ (by decide)) fun _ => hhex _ _ (by decide)

theorem newline_not_mem_quoted (t : Text) : ascii '\n' ∉ t.quoted := by
  have hescape : ∀ r : Rune, ascii '\n' ∉ Quoted.escape r := by
    intro r
    cases r with
    | char c => exact newline_not_mem_escapeChar c
    | stray b =>
      rw [Quoted.escape, List.mem_append, not_or]
      exact ⟨by decide, newline_not_mem_hex 2 b.toNat⟩
  unfold quoted
  rw [List.mem_append, List.mem_append, not_or, not_or, List.mem_flatMap]
  refine ⟨⟨by decide, ?_⟩, by decide⟩
  rintro ⟨r, -, hr⟩
  exact hescape r hr

end Text

theorem Text.ofNat_injective {m n : Nat} (h : Text.ofNat m = Text.ofNat n) : m = n := by
  have hvalue := congrArg (Number.valueFrom 10 0) h
  rwa [Number.valueFrom_ofNat, Number.valueFrom_ofNat] at hvalue

namespace Lattice

open Text

variable {α : Type}

/-- The line of an edge between numbered nodes. -/
def arrowLine (i j : Nat) : Text := "n" ++ ofNat i ++ " -> n" ++ ofNat j

/-- The line of the node of an element and its number. -/
def nodeLine (text : α → Text) (x : α × Nat) : Text :=
  "n" ++ ofNat x.2 ++ " [label=" ++ (text x.1).quoted ++ "]"

theorem arrow_eq (i j : Nat) : arrow i j = arrowLine i j ++ [ascii '\n'] := rfl

theorem drawNode_eq (text : α → Text) (x : α × Nat) :
    drawNode text x = nodeLine text x ++ [ascii '\n'] := by
  unfold drawNode nodeLine
  rw [List.append_assoc _ (ofString "]")]
  rfl

theorem not_mem_ofNat {c : UInt8} (hc : Number.digit? c = none) (n : Nat) : c ∉ ofNat n :=
  (Number.allDigits_ofNat n).not_mem hc

theorem newline_not_mem_arrowLine (i j : Nat) : ascii '\n' ∉ arrowLine i j := by
  have hnumber := not_mem_ofNat (c := ascii '\n') (by decide)
  simp only [arrowLine, List.mem_append, not_or]
  exact ⟨⟨⟨by decide, hnumber i⟩, by decide⟩, hnumber j⟩

theorem newline_not_mem_nodeLine (text : α → Text) (x : α × Nat) :
    ascii '\n' ∉ nodeLine text x := by
  simp only [nodeLine, List.mem_append, not_or]
  exact ⟨⟨⟨⟨by decide, not_mem_ofNat (by decide) x.2⟩, by decide⟩, newline_not_mem_quoted _⟩,
    by decide⟩

/-- What stands before the first blank of a line that starts with a numbered node, and what stands
behind it. -/
theorem cut?_node (i : Nat) (rest : Text) :
    cut? (ascii ' ') (ofString "n" ++ ofNat i ++ ascii ' ' :: rest) =
      some (ofString "n" ++ ofNat i, rest) := by
  refine cut?_append ?_ rest
  rw [List.mem_append, not_or]
  exact ⟨by decide, not_mem_ofNat (by decide) i⟩

theorem cut?_arrowLine (i j : Nat) : cut? (ascii ' ') (arrowLine i j) =
    some (ofString "n" ++ ofNat i, ofString "-> n" ++ ofNat j) := by
  rw [← cut?_node, arrowLine, List.append_assoc]
  rfl

theorem arrowLine_injective : Function.Injective fun p : Nat × Nat => arrowLine p.1 p.2 := by
  rintro ⟨i, j⟩ ⟨i', j'⟩ h
  have hcut := congrArg (cut? (ascii ' ')) h
  simp only [cut?_arrowLine, Option.some.injEq, Prod.mk.injEq, List.append_cancel_left_eq] at hcut
  rw [ofNat_injective hcut.1, ofNat_injective hcut.2]

theorem nodeLine_ne_arrowLine (text : α → Text) (x : α × Nat) (i j : Nat) :
    nodeLine text x ≠ arrowLine i j := by
  intro h
  have hnode : nodeLine text x = ofString "n" ++ ofNat x.2 ++
      ascii ' ' :: (ofString "[label=" ++ (text x.1).quoted ++ ofString "]") := by
    simp only [nodeLine, List.append_assoc]
    rfl
  have hcut := congrArg (cut? (ascii ' ')) h
  rw [cut?_arrowLine, hnode, cut?_node, Option.some.injEq, Prod.mk.injEq] at hcut
  have hhead := congrArg List.head? hcut.2
  cases hhead

variable [DecidableEq α]

theorem flatten_map_ite {β γ : Type} (p : β → Prop) [DecidablePred p] (f : β → List γ)
    (l : List β) :
    (l.map fun x => if p x then f x else []).flatten = (l.filter p).flatMap f := by
  induction l with
  | nil => rfl
  | cons x l ih => by_cases hx : p x <;> simp [hx, ih]

/-- The pairs of numbers between which an edge is drawn, in order. -/
def drawn (l : Lattice α) (states : List α) : List (Nat × Nat) :=
  ((states.zipIdx.product states.zipIdx).filter fun p =>
    p.1.2 ≠ p.2.2 ∧ l.glb p.1.1 p.2.1 = p.1.1).map fun p => (p.1.2, p.2.2)

theorem nodup_drawn (l : Lattice α) (states : List α) : (l.drawn states).Nodup := by
  have hnumbered : states.zipIdx.Nodup := by
    refine List.Nodup.of_map Prod.snd ?_
    rw [List.zipIdx_map_snd]
    exact List.nodup_range'
  refine List.Nodup.map_on ?_ ((hnumbered.product hnumbered).filter _)
  rintro ⟨⟨x, i⟩, ⟨y, j⟩⟩ hp ⟨⟨x', i'⟩, ⟨y', j'⟩⟩ hq heq
  obtain ⟨hx, hy⟩ := List.pair_mem_product.mp (List.mem_of_mem_filter hp)
  obtain ⟨hx', hy'⟩ := List.pair_mem_product.mp (List.mem_of_mem_filter hq)
  obtain ⟨rfl, rfl⟩ := Prod.mk.inj heq
  rw [List.mk_mem_zipIdx_iff_getElem?] at hx hy hx' hy'
  obtain rfl : x = x' := Option.some.inj (hx.symm.trans hx')
  obtain rfl : y = y' := Option.some.inj (hy.symm.trans hy')
  rfl

variable [PartialOrder α]

namespace Lawful

variable {l : Lattice α}

theorem mem_drawn (h : l.Lawful) {states : List α} {i j : Nat} :
    (i, j) ∈ l.drawn states ↔
      i ≠ j ∧ ∃ x y, states[i]? = some x ∧ states[j]? = some y ∧ x ≤ y := by
  simp only [drawn, List.mem_map, List.mem_filter, Prod.exists, List.pair_mem_product,
    List.mk_mem_zipIdx_iff_getElem?, decide_eq_true_eq, Prod.mk.injEq, h.glb_eq_left_iff]
  constructor
  · rintro ⟨x, i, y, j, ⟨⟨hx, hy⟩, hne, hle⟩, rfl, rfl⟩
    exact ⟨hne, x, y, hx, hy, hle⟩
  · rintro ⟨hne, x, y, hx, hy, hle⟩
    exact ⟨x, i, y, j, ⟨⟨hx, hy⟩, hne, hle⟩, rfl, rfl⟩

theorem drawEdge_eq (h : l.Lawful) (p : (α × Nat) × (α × Nat)) :
    l.drawEdge p.1 p.2 = pure (if p.1.2 ≠ p.2.2 ∧ l.glb p.1.1 p.2.1 = p.1.1
      then arrow p.1.2 p.2.2 else []) := by
  unfold drawEdge
  by_cases hne : p.1.2 = p.2.2
  · rw [if_pos hne, if_neg (fun hp => hp.1 hne)]
    rfl
  · simp only [h.apply_eq, ne_eq, hne, not_false_iff, true_and]
    rfl

theorem draw_eq (h : l.Lawful) (text : α → Text) (states : List α) :
    l.draw text states = .ok (ofString "digraph\x7b\nrankdir=\"BT\"\n" ++
      states.zipIdx.flatMap (drawNode text) ++
      (l.drawn states).flatMap (fun p => arrow p.1 p.2) ++ ofString "\x7d") := by
  have hedges := mapM_eq_pure (m := Except (Fault α)) (l := states.zipIdx.product states.zipIdx)
    fun p _ => h.drawEdge_eq p
  have hflatten := flatten_map_ite (fun p : (α × Nat) × (α × Nat) =>
    p.1.2 ≠ p.2.2 ∧ l.glb p.1.1 p.2.1 = p.1.1) (fun p => arrow p.1.2 p.2.2)
    (states.zipIdx.product states.zipIdx)
  rw [drawn, List.flatMap_map, ← hflatten, List.flatMap_def]
  change (List.mapM (fun p => l.drawEdge p.1 p.2) (states.zipIdx.product states.zipIdx) >>= _) = _
  rw [hedges]
  rfl

theorem draw_lines (h : l.Lawful) (text : α → Text) (states : List α) :
    ∃ out, l.draw text states = .ok out ∧
      split (ascii '\n') out = [ofString "digraph\x7b", ofString "rankdir=\"BT\""] ++
        states.zipIdx.map (nodeLine text) ++ (l.drawn states).map (fun p => arrowLine p.1 p.2) ++
        [ofString "\x7d"] := by
  refine ⟨_, h.draw_eq text states, ?_⟩
  have hlines : ofString "digraph\x7b\nrankdir=\"BT\"\n" ++ states.zipIdx.flatMap (drawNode text) ++
      (l.drawn states).flatMap (fun p => arrow p.1 p.2) =
      ([ofString "digraph\x7b", ofString "rankdir=\"BT\""] ++ states.zipIdx.map (nodeLine text) ++
        (l.drawn states).map (fun p => arrowLine p.1 p.2)).flatMap (· ++ [ascii '\n']) := by
    have hnodes : drawNode text = fun x => nodeLine text x ++ [ascii '\n'] :=
      funext (drawNode_eq text)
    simp only [List.flatMap_append, List.flatMap_map, hnodes, arrow_eq]
    rfl
  rw [hlines]
  refine split_lines ?_ (by decide)
  simp only [List.forall_mem_append, List.forall_mem_map, List.forall_mem_cons]
  exact ⟨⟨⟨by decide, by decide, by simp⟩, fun x _ => newline_not_mem_nodeLine text x⟩,
    fun p _ => newline_not_mem_arrowLine p.1 p.2⟩

/-- An edge is drawn once, and only from an element to one that lies above it. -/
theorem draw_edges (h : l.Lawful) (text : α → Text) (states : List α) :
    ∃ out, l.draw text states = .ok out ∧ ∀ i j,
      (split (ascii '\n') out).count (arrowLine i j) ≤ 1 ∧
      ((split (ascii '\n') out).count (arrowLine i j) = 1 ↔
        i ≠ j ∧ ∃ x y, states[i]? = some x ∧ states[j]? = some y ∧ x ≤ y) := by
  obtain ⟨out, hout, hlines⟩ := h.draw_lines text states
  refine ⟨out, hout, fun i j => ?_⟩
  have hcount : (split (ascii '\n') out).count (arrowLine i j) = (l.drawn states).count (i, j) := by
    have hnodes : (states.zipIdx.map (nodeLine text)).count (arrowLine i j) = 0 := by
      refine List.count_eq_zero.mpr fun hm => ?_
      obtain ⟨x, -, hx⟩ := List.mem_map.mp hm
      exact nodeLine_ne_arrowLine text x i j hx
    have hframe : ∀ frame : List Text, (∀ t ∈ frame, t.head? ≠ some (ascii 'n')) →
        frame.count (arrowLine i j) = 0 :=
      fun frame hne => List.count_eq_zero.mpr fun hm => hne _ hm rfl
    have harrows := List.count_map_of_injective (l.drawn states) _ arrowLine_injective (i, j)
    rw [hlines, List.count_append, List.count_append, List.count_append, hnodes, harrows,
      hframe _ (by decide), hframe _ (by decide)]
    omega
  have hle := List.nodup_iff_count_le_one.mp (l.nodup_drawn states) (i, j)
  rw [hcount, ← h.mem_drawn, ← List.count_pos_iff]
  omega

end Lawful

/-- All that a lattice computes, answers, checks and draws goes by the order of its elements. -/
structure FollowsOrder (l : Lattice α) : Prop where
  isGLB : ∀ a b, ∃ m, l.apply a b = .ok m ∧ IsGLB {a, b} m
  comm : ∀ a b, l.apply a b = l.apply b a
  assoc : ∀ a b c, (l.apply a b >>= fun m => l.apply m c) = l.apply b c >>= fun m => l.apply a m
  idem : ∀ a, l.apply a a = .ok a
  top : ∀ a, l.apply l.top a = .ok a ∧ l.apply a l.top = .ok a
  bottom : ∀ a, l.apply l.bottom a = .ok l.bottom ∧ l.apply a l.bottom = .ok l.bottom
  descends : ∀ old new, ∃ answer, l.descends old new = .ok answer ∧ (answer = true ↔ new ≤ old)
  checkDescent : ∀ what old new, (l.checkDescent what old new = .ok () ↔ new ≤ old) ∧
    ((∃ fault, l.checkDescent what old new = .error fault) ↔ ¬new ≤ old)
  draw : ∀ (text : α → Text) (states : List α), ∃ out, l.draw text states = .ok out ∧ ∀ i j,
    (split (ascii '\n') out).count (arrowLine i j) ≤ 1 ∧
    ((split (ascii '\n') out).count (arrowLine i j) = 1 ↔
      i ≠ j ∧ ∃ x y, states[i]? = some x ∧ states[j]? = some y ∧ x ≤ y)

theorem Lawful.followsOrder {l : Lattice α} (h : l.Lawful) : l.FollowsOrder where
  isGLB a b := ⟨_, h.apply_eq a b, h.isGLB_glb a b⟩
  comm a b := by rw [h.apply_eq, h.apply_eq, h.glb_comm]
  assoc a b c := by
    simp only [h.apply_eq]
    exact congrArg Except.ok (h.glb_assoc a b c)
  idem a := by rw [h.apply_eq, h.glb_eq_left_iff.mpr le_rfl]
  top a := by
    rw [h.apply_eq, h.apply_eq, h.glb_eq_right_iff.mpr (h.le_top a),
      h.glb_eq_left_iff.mpr (h.le_top a)]
    exact ⟨rfl, rfl⟩
  bottom a := by
    rw [h.apply_eq, h.apply_eq, h.glb_eq_left_iff.mpr (h.bottom_le a),
      h.glb_eq_right_iff.mpr (h.bottom_le a)]
    exact ⟨rfl, rfl⟩
  descends old new := ⟨_, h.descends_eq old new, by rw [beq_iff_eq, h.glb_eq_right_iff]⟩
  checkDescent what old new := by
    rw [h.checkDescent_eq, ← h.glb_eq_right_iff]
    split <;> simp_all
  draw := h.draw_edges

end Lattice

/-- A lattice follows the order of its elements as soon as its meet does between the extremes. That
of the facts is flat, and no fact descends more than twice. -/
theorem Lattice.operations_follow_order :
    (∀ (α : Type) [DecidableEq α] [PartialOrder α] (l : Lattice α), l.Lawful → l.FollowsOrder) ∧
    Fact.lattice.Lawful ∧
    (∀ a b : Fact, a ≤ b ↔ a = .bottom ∨ b = .top ∨ a = b) ∧
    ∀ chain : List Fact, chain.IsChain (· > ·) → chain.length ≤ 3 :=
  ⟨fun _ _ _ _ h => h.followsOrder, Fact.lattice_lawful, fun _ _ => Fact.le_iff,
    fun _ h => Fact.length_le_of_chain h⟩

/-- The signs of integers, with one that is neither an extreme nor of a single sign. -/
inductive Sign where
  | top
  | negative
  | zero
  | positive
  | nonpositive
  | bottom
  deriving DecidableEq

namespace Sign

/-- Whether an integer of this sign can be negative, zero or positive. -/
def admits : Sign → Bool × Bool × Bool
  | top => (true, true, true)
  | negative => (true, false, false)
  | zero => (false, true, false)
  | positive => (false, false, true)
  | nonpositive => (true, true, false)
  | bottom => (false, false, false)

theorem admits_injective : Function.Injective admits := by
  intro a b
  cases a <;> cases b <;> simp [admits]

instance : PartialOrder Sign := PartialOrder.lift admits admits_injective

instance (a b : Sign) : Decidable (a ≤ b) := inferInstanceAs (Decidable (admits a ≤ admits b))

/-- Two different signs have nothing in common, unless one of them is `nonpositive`. -/
def lattice : Lattice Sign where
  top := top
  bottom := bottom
  meet
    | nonpositive, negative | negative, nonpositive => negative
    | nonpositive, zero | zero, nonpositive => zero
    | _, _ => bottom

theorem lattice_lawful : lattice.Lawful where
  le_top a := by cases a <;> decide
  bottom_le a := by cases a <;> decide
  top_ne_bottom := by decide
  isGLB_meet {a b} hne hat hab hbt hbb := by
    have hmeet : ∀ x, x ≤ lattice.meet a b ↔ x ≤ a ∧ x ≤ b := by
      intro x
      cases a <;> cases b <;> first
        | exact absurd rfl hne
        | exact absurd rfl hat
        | exact absurd rfl hab
        | exact absurd rfl hbt
        | exact absurd rfl hbb
        | cases x <;> decide
    refine isGLB_iff_le_iff.mpr fun x => ?_
    rw [hmeet]
    simp [lowerBounds]

end Sign

theorem Lattice.operations_follow_order_signs :
    Sign.lattice.Lawful ∧ Sign.lattice.FollowsOrder ∧
    [Fact.top, Fact.ofBool true, Fact.bottom].IsChain (· > ·) ∧
    [Fact.top, Fact.ofBool true, Fact.bottom].length ≤ 3 := by
  have hchain : [Fact.top, Fact.ofBool true, Fact.bottom].IsChain (· > ·) := by
    have htrue : Fact.ofBool true < Fact.top := lt_of_le_of_ne (by decide) (by decide)
    have hbottom : Fact.bottom < Fact.ofBool true := lt_of_le_of_ne (by decide) (by decide)
    exact .cons_cons htrue (.cons_cons hbottom (.singleton _))
  obtain ⟨hfollows, -, -, hlength⟩ := operations_follow_order
  exact ⟨Sign.lattice_lawful, hfollows Sign Sign.lattice Sign.lattice_lawful, hchain,
    hlength _ hchain⟩

end TypeFlow
