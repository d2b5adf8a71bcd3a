import Mathlib.Algebra.Ring.Nat
import TypeFlow.Proofs.Traversal
import TypeFlow.Ssa.Source

/-! Which functions there are. A function is accepted when a builder finishes it, whatever was asked
of the builder before, or when it is read from a text, which comes down to the same calls. Whatever
is built lists every value in the block that the value lives in. -/

namespace TypeFlow

section Lookup

variable {α β : Type}

theorem lookup_eq_some {xs : List α} {i : Int} {x : α} :
    lookup xs i = some x ↔ 0 ≤ i ∧ xs[i.toNat]? = some x := by
  unfold lookup
  split
  · next h => simp; omega
  · next h => simp; omega

theorem lookup_natCast (xs : List α) (n : Nat) : lookup xs (n : Int) = xs[n]? := by
  have hn : ¬ (n : Int) < 0 := by omega
  simp [lookup, hn]

theorem mem_of_lookup {xs : List α} {i : Int} {x : α} (h : lookup xs i = some x) : x ∈ xs :=
  List.mem_of_getElem? (lookup_eq_some.mp h).2

theorem exists_lookup_of_mem {xs : List α} {x : α} (h : x ∈ xs) :
    ∃ n : Nat, lookup xs (n : Int) = some x := by
  obtain ⟨n, hn⟩ := List.getElem?_of_mem h
  exact ⟨n, (lookup_natCast xs n).trans hn⟩

/-- What stands at its own number is found under it. -/
theorem lookup_number {xs : List α} {number : α → Int}
    (hn : ∀ {i x}, lookup xs i = some x → number x = i) {x : α} (hx : x ∈ xs) :
    lookup xs (number x) = some x := by
  obtain ⟨n, hfound⟩ := exists_lookup_of_mem hx
  rw [hn hfound]
  exact hfound

theorem lookup_bounds {xs : List α} {i : Int} {x : α} (h : lookup xs i = some x) :
    0 ≤ i ∧ i < xs.length := by
  obtain ⟨hi, hx⟩ := lookup_eq_some.mp h
  have hlt := (List.getElem?_eq_some_iff.mp hx).1
  omega

theorem exists_lookup {xs : List α} {i : Int} (h : 0 ≤ i) (hlt : i < xs.length) :
    ∃ x, lookup xs i = some x := by
  have hn : i.toNat < xs.length := by omega
  exact ⟨xs[i.toNat], lookup_eq_some.mpr ⟨h, List.getElem?_eq_getElem hn⟩⟩

theorem inRange_iff {xs : List α} {i : Int} :
    (decide (0 ≤ i) && decide (i < xs.length)) = true ↔ ∃ x, lookup xs i = some x := by
  rw [Bool.and_eq_true, decide_eq_true_eq, decide_eq_true_eq]
  constructor
  · rintro ⟨hpos, hlt⟩
    exact exists_lookup hpos hlt
  · rintro ⟨_, h⟩
    exact lookup_bounds h

theorem lookup_map (f : α → β) (xs : List α) (i : Int) :
    lookup (xs.map f) i = (lookup xs i).map f := by
  unfold lookup
  split <;> simp

theorem lookup_append_of_some {xs : List α} {i : Int} {x : α} (ys : List α)
    (h : lookup xs i = some x) : lookup (xs ++ ys) i = some x := by
  obtain ⟨hi, hx⟩ := lookup_eq_some.mp h
  have hlt := (List.getElem?_eq_some_iff.mp hx).1
  exact lookup_eq_some.mpr ⟨hi, (List.getElem?_append_left hlt).trans hx⟩

theorem lookup_modify {xs : List α} {i : Int} {x : α} (n : Nat) (f : α → α)
    (h : lookup xs i = some x) :
    lookup (xs.modify n f) i = some (if n = i.toNat then f x else x) := by
  obtain ⟨hi, hx⟩ := lookup_eq_some.mp h
  refine lookup_eq_some.mpr ⟨hi, ?_⟩
  rw [List.getElem?_modify, hx]
  split <;> rfl

theorem exists_of_lookup_modify {xs : List α} {i : Int} {n : Nat} {f : α → α} {y : α}
    (h : lookup (xs.modify n f) i = some y) :
    ∃ x, lookup xs i = some x ∧ (if n = i.toNat then f x else x) = y := by
  obtain ⟨hi, hlt⟩ := lookup_bounds h
  rw [List.length_modify] at hlt
  obtain ⟨x, hx⟩ := exists_lookup hi hlt
  exact ⟨x, hx, Option.some.inj ((lookup_modify n f hx).symm.trans h)⟩

theorem lookup_concat {xs : List α} {i : Int} {x y : α} :
    lookup (xs ++ [y]) i = some x ↔ lookup xs i = some x ∨ i = xs.length ∧ x = y := by
  by_cases hi : i < 0
  · simp [lookup, hi]
    omega
  · obtain ⟨n, rfl⟩ : ∃ n : Nat, i = n := ⟨i.toNat, by omega⟩
    simp only [lookup_natCast, Int.natCast_inj]
    rcases Nat.lt_trichotomy n xs.length with hlt | rfl | hgt
    · have hne : n ≠ xs.length := by omega
      simp [List.getElem?_append_left hlt, hne]
    · simp [eq_comm]
    · have hne : n ≠ xs.length := by omega
      have hout : (xs ++ [y])[n]? = none :=
        List.getElem?_eq_none (by rw [List.length_append, List.length_singleton]; omega)
      simp [hout, List.getElem?_eq_none (Nat.le_of_lt hgt), hne]

theorem sum_map_modify {f : α → α} {g : α → Nat} {c : Nat} (hf : ∀ x, g (f x) = g x + c)
    {xs : List α} {n : Nat} (hn : n < xs.length) :
    ((xs.modify n f).map g).sum = (xs.map g).sum + c := by
  induction xs generalizing n with
  | nil => simp at hn
  | cons x xs ih =>
    cases n with
    | zero =>
      simp only [List.modify_zero_cons, List.map_cons, List.sum_cons, hf]
      omega
    | succ n =>
      have hrest := ih (n := n) (by simpa using hn)
      simp only [List.modify_succ_cons, List.map_cons, List.sum_cons, hrest]
      omega

end Lookup

namespace Builder

/-- The builder after some calls, none of which used a number that names nothing. A call that is
refused for another reason changes nothing. -/
def after (b : Builder) : List Call → Option Builder
  | [] => some b
  | c :: rest =>
    match b.call c with
    | .ok (_, b') => b'.after rest
    | .error .dangling => none
    | .error _ => b.after rest

def Leads (b b' : Builder) : Prop := ∃ calls, b.after calls = some b'

theorem Leads.refl (b : Builder) : b.Leads b := ⟨[], rfl⟩

theorem Leads.cons {b b₁ b₂ : Builder} {c : Call} {r : Option Int}
    (h : b.call c = .ok (r, b₁)) (hb : b₁.Leads b₂) : b.Leads b₂ := by
  obtain ⟨calls, hc⟩ := hb
  exact ⟨c :: calls, by simp [after, h, hc]⟩

theorem Leads.single {b b' : Builder} {c : Call} {r : Option Int}
    (h : b.call c = .ok (r, b')) : b.Leads b' := .cons h (.refl b')

theorem Leads.trans {b b₁ b₂ : Builder} (h₁ : b.Leads b₁) (h₂ : b₁.Leads b₂) : b.Leads b₂ := by
  obtain ⟨calls, hc⟩ := h₁
  induction calls generalizing b with
  | nil =>
    obtain rfl : b = b₁ := by simpa [after] using hc
    exact h₂
  | cons c rest ih =>
    unfold after at hc
    split at hc
    · next hcall => exact .cons hcall (ih hc)
    · cases hc
    · exact ih hc

theorem Leads.preserves {P : Builder → Prop}
    (step : ∀ b c r b', P b → b.call c = .ok (r, b') → P b') {b b' : Builder}
    (h : b.Leads b') (hb : P b) : P b' := by
  obtain ⟨calls, hc⟩ := h
  induction calls generalizing b with
  | nil =>
    obtain rfl : b = b' := by simpa [after] using hc
    exact hb
  | cons c rest ih =>
    unfold after at hc
    split at hc
    · next hcall => exact ih (step _ _ _ _ hb hcall) hc
    · cases hc
    · exact ih hb hc

/-- Only φ-nodes have incoming edges, and they have nothing else. -/
def Shaped (v : Value) : Prop := if v.isPhi then v.args = [] ∧ v.targets = [] else v.edges = []

/-- What a call that is not refused makes of a builder. -/
inductive Grows (b : Builder) : Builder → Prop
  | block (name : Text) : b.Grows (b.addBlock name).2
  | setBlock (id : BlockId) : b.Grows { b with current := id }
  | value {id : ValueId} {b' : Builder} {v : ValueId → Value} {place : ValueId → Block → Block}
    (hv : ∀ i, (v i).id = i ∧ (v i).block = b.current ∧ Shaped (v i))
    (hplace : ∀ i blk, place i blk = if (v i).isPhi then { blk with phis := blk.phis ++ [i] }
      else { blk with instrs := blk.instrs ++ [i] })
    (h : b.addValue v place = .ok (id, b')) : b.Grows b'
  | modify {id : ValueId} {f : Value → Value} (hid : 0 ≤ id)
    (hf : ∀ v, lookup b.func.values id = some v → (f v).id = v.id ∧ (f v).block = v.block ∧
      (f v).op = v.op ∧ (Shaped v → Shaped (f v))) : b.Grows (b.modifyValue id f)

theorem call_grows {b b' : Builder} {c : Call} {r : Option Int} (hc : b.call c = .ok (r, b')) :
    b.Grows b' := by
  cases c with
  | block name =>
    obtain ⟨-, rfl⟩ : _ ∧ (b.addBlock name).2 = b' := by simpa [Builder.call] using hc
    exact .block name
  | setBlock id =>
    obtain ⟨-, rfl⟩ : _ ∧ { b with current := id } = b' := by simpa [Builder.call] using hc
    exact .setBlock id
  | current =>
    obtain ⟨-, rfl⟩ : _ ∧ b = b' := by simpa [Builder.call] using hc
    exact .setBlock b.current
  | instr op targets args =>
    simp only [Builder.call, addInstr] at hc
    split at hc
    · cases hc
    next hop =>
    cases ha : b.addValue (fun id => { id, block := b.current, op, args, targets })
        (fun id blk => { blk with instrs := blk.instrs ++ [id] }) with
    | error e => simp [ha, Except.map] at hc
    | ok p =>
      obtain ⟨id, b₁⟩ := p
      obtain ⟨-, rfl⟩ : _ ∧ b₁ = b' := by simpa [ha, Except.map] using hc
      exact .value (by simp [Shaped, Value.isPhi, hop]) (by simp [Value.isPhi, hop]) ha
  | phi edges =>
    simp only [Builder.call, addPhi] at hc
    cases ha : b.addValue (fun id => { id, block := b.current, op := .phi, edges })
        (fun id blk => { blk with phis := blk.phis ++ [id] }) with
    | error e => simp [ha, Except.map] at hc
    | ok p =>
      obtain ⟨id, b₁⟩ := p
      obtain ⟨-, rfl⟩ : _ ∧ b₁ = b' := by simpa [ha, Except.map] using hc
      exact .value (by simp [Shaped, Value.isPhi]) (by simp [Value.isPhi]) ha
  | addEdge phi pred arg =>
    simp only [Builder.call, addEdge] at hc
    split at hc
    · next v name hv hname =>
      split at hc
      · next hphi =>
        obtain ⟨-, rfl⟩ : _ ∧ _ = b' := by simpa [Except.map] using hc
        refine .modify (lookup_bounds hv).1 fun w hw => ?_
        obtain rfl : v = w := Option.some.inj (hv.symm.trans hw)
        have hop : v.op = .phi := by simpa [Value.isPhi] using hphi
        simp [Shaped, Value.isPhi, hop]
      · simp [Except.map] at hc
    · simp [Except.map] at hc
  | setName id name =>
    simp only [Builder.call, setName] at hc
    split at hc
    · next hid =>
      obtain ⟨-, rfl⟩ : _ ∧ _ = b' := by simpa [Except.map] using hc
      simp only [Func.hasValue, Bool.and_eq_true, decide_eq_true_eq] at hid
      exact .modify hid.1 fun w _ => by simp [Shaped, Value.isPhi]
    · simp [Except.map] at hc

/-- Numbers are positions, and every value stands in the list of its block that it belongs to.
Nothing is listed twice, so the lists hold as many numbers as there are values. -/
structure Tidy (b : Builder) : Prop where
  entry_eq : b.func.entry = if b.func.blocks.isEmpty then noBlock else 0
  block_id : ∀ {i blk}, lookup b.func.blocks i = some blk → blk.id = i
  value_id : ∀ {i v}, lookup b.func.values i = some v → v.id = i
  listed : ∀ v ∈ b.func.values, ∃ blk, lookup b.func.blocks v.block = some blk ∧
    v.id ∈ if v.isPhi then blk.phis else blk.instrs
  member_value : ∀ {i blk id} (phi : Bool), lookup b.func.blocks i = some blk →
    (id ∈ if phi then blk.phis else blk.instrs) →
    ∃ v, lookup b.func.values id = some v ∧ v.isPhi = phi ∧ v.block = i
  shaped : ∀ v ∈ b.func.values, Shaped v
  members_sum : (b.func.blocks.map (·.members.length)).sum = b.func.values.length

theorem new_tidy (name : Text) : (new name).Tidy := by
  refine ⟨rfl, ?_, ?_, ?_, ?_, ?_, rfl⟩ <;> intros <;> simp_all [new, lookup]

theorem Tidy.addBlock {b : Builder} (h : b.Tidy) (name : Text) : (b.addBlock name).2.Tidy := by
  refine ⟨?_, fun hi => ?_, h.value_id, fun v hv => ?_, fun phi hi hm => ?_, h.shaped, ?_⟩
  · have hentry := h.entry_eq
    cases hb : b.func.blocks with
    | nil => simp [Builder.addBlock, hentry, hb]
    | cons blk blks => simp [Builder.addBlock, hentry, hb, noBlock]
  · rcases lookup_concat.mp hi with hold | ⟨rfl, rfl⟩
    · exact h.block_id hold
    · rfl
  · obtain ⟨blk, hblk, hm⟩ := h.listed v hv
    exact ⟨blk, lookup_append_of_some _ hblk, hm⟩
  · rcases lookup_concat.mp hi with hold | ⟨rfl, rfl⟩
    · exact h.member_value phi hold hm
    · cases phi <;> simp at hm
  · simpa [Builder.addBlock, Block.members] using h.members_sum

theorem Tidy.addValue {b b' : Builder} {id : ValueId} {v : ValueId → Value}
    {place : ValueId → Block → Block} (h : b.Tidy)
    (hv : ∀ i, (v i).id = i ∧ (v i).block = b.current ∧ Shaped (v i))
    (hplace : ∀ i blk, place i blk = if (v i).isPhi then { blk with phis := blk.phis ++ [i] }
      else { blk with instrs := blk.instrs ++ [i] })
    (he : b.addValue v place = .ok (id, b')) : b'.Tidy := by
  unfold Builder.addValue at he
  split at he
  · cases he
  split at he
  · cases he
  next hcur =>
  obtain ⟨-, rfl⟩ := Prod.mk.inj (Except.ok.inj he)
  simp only [Func.hasBlock, Bool.not_eq_eq_eq_not, Bool.not_true, Bool.not_eq_false,
    Bool.and_eq_true, decide_eq_true_eq] at hcur
  obtain ⟨blk, hblk⟩ : ∃ blk, lookup b.func.blocks b.current = some blk :=
    exists_lookup hcur.1 hcur.2
  have hkeep : ∀ i blk, (place i blk).id = blk.id ∧ blk.phis ⊆ (place i blk).phis ∧
      blk.instrs ⊆ (place i blk).instrs := by
    intro i blk
    cases hp : (v i).isPhi <;> simp [hplace, hp]
  have hput : ∀ i blk, i ∈ if (v i).isPhi then (place i blk).phis else (place i blk).instrs := by
    intro i blk
    cases hp : (v i).isPhi <;> simp [hplace, hp]
  have hone : ∀ i blk, (place i blk).members.length = blk.members.length + 1 := by
    intro i blk
    cases hp : (v i).isPhi <;> simp [hplace, hp, Block.members] <;> omega
  have hold : ∀ i blk (phi : Bool) id,
      (id ∈ if phi then (place i blk).phis else (place i blk).instrs) →
      (id ∈ if phi then blk.phis else blk.instrs) ∨ id = i ∧ (v i).isPhi = phi := by
    intro i blk phi id
    cases hp : (v i).isPhi <;> cases phi <;> simp +contextual [hplace, hp]
  refine ⟨?_, fun hi => ?_, fun hi => ?_, fun w hw => ?_, fun {i _ _} phi hi hm => ?_,
    fun w hw => ?_, ?_⟩
  · simpa using h.entry_eq
  · obtain ⟨blk', hblk', rfl⟩ := exists_of_lookup_modify hi
    have hid := h.block_id hblk'
    split
    · exact (hkeep _ _).1.trans hid
    · exact hid
  · rcases lookup_concat.mp hi with hold | ⟨rfl, rfl⟩
    · exact h.value_id hold
    · exact (hv _).1
  · rcases List.mem_append.mp hw with hw | hw
    · obtain ⟨blk', hblk', hm⟩ := h.listed w hw
      refine ⟨_, lookup_modify _ _ hblk', ?_⟩
      by_cases hp : w.isPhi = true
      · rw [if_pos hp] at hm ⊢
        split
        · exact (hkeep _ _).2.1 hm
        · exact hm
      · rw [if_neg hp] at hm ⊢
        split
        · exact (hkeep _ _).2.2 hm
        · exact hm
    · obtain rfl := List.mem_singleton.mp hw
      obtain ⟨hid, hblock, -⟩ := hv b.func.values.length
      rw [hblock, hid]
      refine ⟨_, lookup_modify _ _ hblk, ?_⟩
      simpa using hput b.func.values.length blk
  · have hkept : ∀ {i blk id}, lookup b.func.blocks i = some blk →
        (id ∈ if phi then blk.phis else blk.instrs) →
        ∃ w, lookup (b.func.values ++ [v b.func.values.length]) id = some w ∧ w.isPhi = phi ∧
          w.block = i := by
      intro i blk id hblk hid
      obtain ⟨w, hw, hrest⟩ := h.member_value phi hblk hid
      exact ⟨w, lookup_append_of_some _ hw, hrest⟩
    obtain ⟨blk', hblk', rfl⟩ := exists_of_lookup_modify hi
    by_cases hcur' : b.current.toNat = i.toNat
    · rw [if_pos hcur'] at hm
      rcases hold _ _ _ _ hm with hm | ⟨rfl, hp⟩
      · exact hkept hblk' hm
      · have hi' := (lookup_bounds hblk').1
        refine ⟨_, lookup_concat.mpr (Or.inr ⟨rfl, rfl⟩), hp, ?_⟩
        rw [(hv _).2.1, ← Int.toNat_of_nonneg hcur.1, hcur', Int.toNat_of_nonneg hi']
    · rw [if_neg hcur'] at hm
      exact hkept hblk' hm
  · rcases List.mem_append.mp hw with hw | hw
    · exact h.shaped w hw
    · obtain rfl := List.mem_singleton.mp hw
      exact (hv _).2.2
  · obtain ⟨hpos, hbound⟩ := lookup_bounds hblk
    have hlt : b.current.toNat < b.func.blocks.length := by omega
    have hcount : ((b.func.blocks.modify b.current.toNat (place b.func.values.length)).map
        (·.members.length)).sum = (b.func.blocks.map (·.members.length)).sum + 1 :=
      sum_map_modify (g := (·.members.length)) (hone _) hlt
    simpa [h.members_sum] using hcount

theorem Tidy.modifyValue {b : Builder} {id : ValueId} {f : Value → Value} (h : b.Tidy)
    (hid : 0 ≤ id)
    (hf : ∀ v, lookup b.func.values id = some v → (f v).id = v.id ∧ (f v).block = v.block ∧
      (f v).op = v.op ∧ (Shaped v → Shaped (f v))) : (b.modifyValue id f).Tidy := by
  have hold : ∀ {i w}, lookup (b.modifyValue id f).func.values i = some w →
      ∃ v, lookup b.func.values i = some v ∧ w.id = v.id ∧ w.block = v.block ∧ w.op = v.op ∧
        (Shaped v → Shaped w) := by
    intro i w hw
    obtain ⟨v, hv, rfl⟩ := exists_of_lookup_modify hw
    refine ⟨v, hv, ?_⟩
    split
    · next hi =>
      have hi' := (lookup_bounds hv).1
      have he : id = i := by
        rw [← Int.toNat_of_nonneg hid, hi, Int.toNat_of_nonneg hi']
      exact hf v (he ▸ hv)
    · simp
  have hmem : ∀ w ∈ (b.modifyValue id f).func.values, ∃ v ∈ b.func.values, w.id = v.id ∧
      w.block = v.block ∧ w.op = v.op ∧ (Shaped v → Shaped w) := by
    intro w hw
    obtain ⟨n, hn⟩ := exists_lookup_of_mem hw
    obtain ⟨v, hv, hrest⟩ := hold hn
    exact ⟨v, mem_of_lookup hv, hrest⟩
  refine ⟨h.entry_eq, h.block_id, fun hi => ?_, fun w hw => ?_, fun phi hi hm => ?_,
    fun w hw => ?_, ?_⟩
  · obtain ⟨v, hv, he, -⟩ := hold hi
    exact he.trans (h.value_id hv)
  · obtain ⟨v, hv, hi, hb, hop, -⟩ := hmem w hw
    have hp : w.isPhi = v.isPhi := by simp only [Value.isPhi, hop]
    rw [hi, hb, hp]
    exact h.listed v hv
  · obtain ⟨v, hv, hp, hb⟩ := h.member_value phi hi hm
    refine ⟨_, lookup_modify _ _ hv, ?_⟩
    split
    · next hn =>
      have hv' := (lookup_bounds hv).1
      rw [← Int.toNat_of_nonneg hv', ← hn, Int.toNat_of_nonneg hid] at hv
      obtain ⟨-, hblock, hop, -⟩ := hf v hv
      exact ⟨by rw [← hp]; simp only [Value.isPhi, hop], hblock.trans hb⟩
    · exact ⟨hp, hb⟩
  · obtain ⟨v, hv, -, -, -, hs⟩ := hmem w hw
    exact hs (h.shaped v hv)
  · simpa [Builder.modifyValue] using h.members_sum

theorem Tidy.grows {b b' : Builder} (h : b.Tidy) (hb : b.Grows b') : b'.Tidy := by
  cases hb with
  | block name => exact h.addBlock name
  | setBlock id =>
    exact ⟨h.entry_eq, h.block_id, h.value_id, h.listed, h.member_value, h.shaped, h.members_sum⟩
  | value hv hplace he => exact h.addValue hv hplace he
  | modify hid hf => exact h.modifyValue hid hf

theorem Leads.tidy {b : Builder} {name : Text} (h : (new name).Leads b) : b.Tidy :=
  h.preserves (fun _ _ _ _ hb hc => hb.grows (call_grows hc)) (new_tidy name)

end Builder

namespace Func

/-- A builder finishes the function after some calls. -/
def Built (fn : Func) : Prop := ∃ name b, (Builder.new name).Leads b ∧ b.finish = .ok fn

/-- The function that some calls build, if it is accepted. -/
def ofCalls? (name : Text) (calls : List Builder.Call) : Option Func :=
  ((Builder.new name).after calls).bind (·.finish.toOption)

theorem built_of_ofCalls? {name : Text} {calls : List Builder.Call} {fn : Func}
    (h : ofCalls? name calls = some fn) : fn.Built := by
  obtain ⟨b, hb, hfn⟩ := Option.bind_eq_some_iff.mp h
  refine ⟨name, b, ⟨calls, hb⟩, ?_⟩
  cases hf : b.finish with
  | error _ => simp [hf, Except.toOption] at hfn
  | ok _ => simpa [hf, Except.toOption] using hfn

def Parsed (fn : Func) : Prop := ∃ file src fns, Source.parse file src = .ok fns ∧ fn ∈ fns

/-- The functions that an analysis may be given. -/
def Accepted (fn : Func) : Prop := fn.Built ∨ fn.Parsed

end Func

namespace Source

open Builder

theorem leads_addBlocks (labels : List Text) (b : Builder) :
    b.Leads (labels.foldl (fun b label => (b.addBlock label).2) b) := by
  induction labels generalizing b with
  | nil => exact .refl b
  | cons label labels ih => exact .cons (c := .block label) rfl (ih _)

theorem leads_addInstr {b b' : Builder} {op : Opcode} {targets : List BlockId}
    {args : List Operand} {id : ValueId} (h : b.addInstr op targets args = .ok (id, b')) :
    b.Leads b' :=
  .single (c := .instr op targets args) (r := some id) (by simp [Builder.call, h, Except.map])

theorem leads_addPhi {b b' : Builder} {edges : List Incoming} {id : ValueId}
    (h : b.addPhi edges = .ok (id, b')) : b.Leads b' :=
  .single (c := .phi edges) (r := some id) (by simp [Builder.call, h, Except.map])

theorem leads_setName {b b' : Builder} {id : ValueId} {name : Text}
    (h : b.setName id name = .ok b') : b.Leads b' :=
  .single (c := .setName id name) (r := none) (by simp [Builder.call, h, Except.map])

theorem call_eq_ok {α : Type} {f : Builder → Except Builder.Fault (α × Builder)} {a : α}
    {b b' : Builder} : call f b = .ok a b' ↔ f b = .ok (a, b') := by
  unfold call
  cases f b <;> simp [Prod.ext_iff]

theorem built_eq_ok {r : EStateM.Result Error Builder Unit} {b : Builder} :
    built r = .ok b ↔ r = .ok () b := by
  cases r <;> simp [built]

theorem addLine_eq (file : Text) (names : Line.Names) (b : Builder) (l : Numbered) :
    addLine file names b l =
      match Token.label? l.tokens with
      | some label => .ok { b with current := (names.block? label).getD 0 }
      | none =>
        match Line.statement names l.tokens with
        | .error fault => .error (.line file l.number fault)
        | .ok s => built (addStatement names s b) := by
  unfold addLine readLine readValue
  cases Token.label? l.tokens with
  | some label => rfl
  | none => cases Line.statement names l.tokens <;> rfl

theorem leads_addStatement {names : Line.Names} {b b' : Builder} {s : Line.Statement}
    (h : addStatement names s b = .ok () b') : b.Leads b' := by
  obtain ⟨name, body⟩ := s
  obtain ⟨id, b₁, hb, h⟩ := run_bind_eq_ok.mp h
  have hlead : b.Leads b₁ := by
    rw [call_eq_ok] at hb
    cases body with
    | instr op targets args => exact leads_addInstr hb
    | phi edges => exact leads_addPhi hb
  cases name with
  | none =>
    cases h
    exact hlead
  | some name =>
    dsimp only at h
    split at h
    · cases h
    · obtain ⟨b₂, hname, heq⟩ := map_eq_ok.mp (call_eq_ok.mp h)
      cases heq
      exact hlead.trans (leads_setName hname)

theorem leads_addLine {file : Text} {names : Line.Names} {b b' : Builder} {l : Numbered}
    (h : addLine file names b l = .ok b') : b.Leads b' := by
  rw [addLine_eq] at h
  split at h
  · next label _ =>
    cases h
    exact .single (c := .setBlock ((names.block? label).getD 0)) rfl
  · split at h
    · cases h
    · exact leads_addStatement (built_eq_ok.mp h)

theorem Draft.toFunc_built {file : Text} {d : Draft} {fn : Func} (h : d.toFunc file = .ok fn) :
    fn.Built := by
  unfold Draft.toFunc at h
  obtain ⟨names, -, h⟩ := bind_eq_ok.mp h
  split at h
  · cases h
  obtain ⟨b, hb, h⟩ := bind_eq_ok.mp h
  split at h
  · next hf =>
    cases h
    refine ⟨d.name, b, ?_, hf⟩
    exact foldlM_preserves (P := (Builder.new d.name).Leads)
      (fun _ _ _ _ hl hs => hl.trans (leads_addLine hs)) (leads_addBlocks _ _) hb
  · cases h

theorem Progress.close_built {file : Text} {p : Progress} {fns : List Func}
    (hp : ∀ fn ∈ p.done, fn.Built) (h : p.close file = .ok fns) : ∀ fn ∈ fns, fn.Built := by
  unfold Progress.close at h
  split at h
  · cases h
    exact hp
  · obtain ⟨fn, hfn, rfl⟩ := map_eq_ok.mp h
    intro g hg
    rcases List.mem_cons.mp hg with rfl | hg
    · exact Draft.toFunc_built hfn
    · exact hp g hg

theorem Progress.step_built {file : Text} {p p' : Progress} {l : Numbered}
    (hp : ∀ fn ∈ p.done, fn.Built) (h : p.step file l = .ok p') : ∀ fn ∈ p'.done, fn.Built := by
  unfold Progress.step at h
  split at h
  · split at h
    · obtain ⟨fns, hfns, rfl⟩ := map_eq_ok.mp h
      exact close_built hp hfns
    · cases h
  · split at h
    · cases h
    · cases h
      exact hp

theorem parse_built {file src : Text} {fns : List Func} (h : parse file src = .ok fns) :
    ∀ fn ∈ fns, fn.Built := by
  unfold parse at h
  obtain ⟨p, hp, h⟩ := bind_eq_ok.mp h
  have hdone : ∀ fn ∈ p.done, fn.Built :=
    foldlM_preserves (P := fun p : Progress => ∀ fn ∈ p.done, fn.Built)
      (fun _ _ _ _ hq hs => Progress.step_built hq hs) (by simp) hp
  split at h
  · cases h
  · obtain ⟨closed, hc, h⟩ := bind_eq_ok.mp h
    cases h
    intro fn hfn
    exact Progress.close_built hdone hc fn (List.mem_reverse.mp hfn)

end Source

theorem Func.Accepted.built {fn : Func} (h : fn.Accepted) : fn.Built := by
  rcases h with h | ⟨file, src, fns, hp, hfn⟩
  · exact h
  · exact Source.parse_built hp fn hfn

end TypeFlow
