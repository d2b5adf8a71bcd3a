import Mathlib.Data.List.Nodup
import Mathlib.Logic.Function.Basic
import Mathlib.Tactic.Tauto
import TypeFlow.Proofs.Construction

/-! What linking a function comes to. Edges and users are found one at a time, and a repeated one is
told by the successors found so far or by the user found last. In the end the successors of a block
are the distinct targets of its last instruction, its predecessors the blocks that it succeeds, and
the users of a value the values that refer to it, all in the order of their numbers. -/

namespace TypeFlow

theorem modify_map_of_number {α β : Type} {xs : List α} {number : α → Int}
    (hn : ∀ {i x}, lookup xs i = some x → number x = i) (g : α → β) (f : β → β) {i : Int}
    (hi : 0 ≤ i) :
    (xs.map g).modify i.toNat f = xs.map fun x => if number x = i then f (g x) else g x := by
  apply List.ext_getElem?
  intro n
  rw [List.getElem?_modify, List.getElem?_map, List.getElem?_map]
  cases hx : xs[n]? with
  | none => simp
  | some x =>
    have hnum : number x = n := hn ((lookup_natCast xs n).trans hx)
    have hiff : i.toNat = n ↔ number x = i := by omega
    by_cases he : number x = i
    · simp [hiff.mpr he, he]
    · have hne : i.toNat ≠ n := fun h => he (hiff.mp h)
      simp [hne, he]

theorem map_modify_of_eq {α β : Type} {g : α → β} {f : α → α} (h : ∀ x, g (f x) = g x)
    (xs : List α) (n : Nat) : (xs.modify n f).map g = xs.map g := by
  apply List.ext_getElem?
  intro i
  rw [List.getElem?_map, List.getElem?_map, List.getElem?_modify]
  cases xs[i]? with
  | none => rfl
  | some x =>
    by_cases hi : n = i <;> simp [hi, h]

theorem sorted_of_number {α : Type} {xs : List α} {number : α → Int}
    (hn : ∀ {i x}, lookup xs i = some x → number x = i) : (xs.map number).Pairwise (· < ·) := by
  apply List.pairwise_iff_getElem.mpr
  intro i j hi hj hij
  rw [List.length_map] at hi hj
  have hi' := hn ((lookup_natCast xs i).trans (List.getElem?_eq_getElem hi))
  have hj' := hn ((lookup_natCast xs j).trans (List.getElem?_eq_getElem hj))
  rw [List.getElem_map, List.getElem_map]
  omega

theorem nodup_of_number {α : Type} {xs : List α} {number : α → Int}
    (hn : ∀ {i x}, lookup xs i = some x → number x = i) : (xs.map number).Nodup :=
  (sorted_of_number hn).imp Int.ne_of_lt

theorem foldl_insert_eq_eraseDups {α : Type} [DecidableEq α] (xs done : List α) :
    xs.foldl (fun acc x => if x ∈ acc then acc else acc ++ [x]) done =
      done ++ (xs.filter (· ∉ done)).eraseDups := by
  induction xs generalizing done with
  | nil => simp
  | cons x xs ih =>
    by_cases hx : x ∈ done
    · simp [hx, ih]
    · have hfilter : xs.filter (fun y => decide (y ∉ done ++ [x])) =
          (xs.filter (fun y => decide (y ∉ done))).filter (fun y => !y == x) := by
        rw [List.filter_filter]
        apply List.filter_congr
        intro y _
        by_cases hy : y = x <;> simp [hy]
      rw [List.foldl_cons, if_neg hx, ih, hfilter, List.filter_cons_of_pos (by simpa using hx),
        List.eraseDups_cons, List.append_assoc, List.singleton_append]

theorem nodup_foldl_insert {α : Type} [DecidableEq α] (xs : List α) {done : List α}
    (h : done.Nodup) :
    (xs.foldl (fun acc x => if x ∈ acc then acc else acc ++ [x]) done).Nodup := by
  induction xs generalizing done with
  | nil => exact h
  | cons x xs ih =>
    rw [List.foldl_cons]
    split
    · exact ih h
    · next hx =>
      apply ih
      rw [List.nodup_append]
      exact ⟨h, List.nodup_singleton x, by rintro y hy z hz rfl; simp_all⟩

namespace Func

/-! Users -/

/-- The values that refer to a value, each once. -/
def users (fn : Func) (id : ValueId) : List Use :=
  (fn.values.filter (·.refersTo id)).map fun v => ⟨v.id, v.block⟩

def withUses (uses : ValueId → List Use) (v : Value) : Value := { v with uses := uses v.id }

/-- The users of all values after an operand of `user` was found. -/
def noteUse (user : Value) (uses : ValueId → List Use) (o : Operand) (id : ValueId) : List Use :=
  if o = .value id ∧ (uses id).getLast?.any (·.user == user.id) = false then
    uses id ++ [⟨user.id, user.block⟩]
  else uses id

theorem addUse_withUses {values : List Value}
    (hid : ∀ {i v}, lookup values i = some v → v.id = i) (user : Value)
    (uses : ValueId → List Use) (o : Operand) :
    addUse user (values.map (withUses uses)) o = values.map (withUses (noteUse user uses o)) := by
  cases o with
  | literal lit =>
    have hnote : noteUse user uses (.literal lit) = uses := by
      funext d
      simp [noteUse]
    rw [hnote]
    rfl
  | value d =>
    by_cases hd : d < 0
    · simp only [addUse, if_pos hd]
      apply List.map_congr_left
      intro v hv
      obtain ⟨n, hn⟩ := exists_lookup_of_mem hv
      have hpos : 0 ≤ v.id := by rw [hid hn]; exact Int.natCast_nonneg n
      have hne : ¬ d = v.id := fun he => Int.not_lt.mpr hpos (he ▸ hd)
      simp [withUses, noteUse, hne]
    · simp only [addUse, if_neg hd]
      rw [modify_map_of_number hid _ _ (Int.not_lt.mp hd)]
      apply List.map_congr_left
      intro v _
      by_cases he : v.id = d
      · subst he
        cases hl : (uses v.id).getLast?.any (·.user == user.id) <;> simp [withUses, noteUse, hl]
      · have hne : ¬ d = v.id := fun h => he h.symm
        simp [withUses, noteUse, he, hne]

theorem foldl_noteUse_of_last {user : Value} {uses : ValueId → List Use} {d : ValueId}
    (h : (uses d).getLast?.any (·.user == user.id) = true) (os : List Operand) :
    os.foldl (noteUse user) uses d = uses d := by
  induction os generalizing uses with
  | nil => rfl
  | cons o os ih =>
    have hstep : noteUse user uses o d = uses d := by simp [noteUse, h]
    rw [List.foldl_cons, ih (by rwa [hstep]), hstep]

/-- All operands of one user are found before the next user comes, so that looking at the last
entry is enough to add it once. -/
theorem foldl_noteUse {user : Value} {uses : ValueId → List Use} {d : ValueId}
    (h : (uses d).getLast?.any (·.user == user.id) = false) (os : List Operand) :
    os.foldl (noteUse user) uses d =
      uses d ++ if .value d ∈ os then [⟨user.id, user.block⟩] else [] := by
  induction os generalizing uses with
  | nil => simp
  | cons o os ih =>
    rw [List.foldl_cons]
    by_cases ho : o = .value d
    · have hstep : noteUse user uses o d = uses d ++ [⟨user.id, user.block⟩] := by
        simp [noteUse, h, ho]
      rw [foldl_noteUse_of_last (by simp [hstep]), hstep]
      simp [ho]
    · have hstep : noteUse user uses o d = uses d := by simp [noteUse, ho]
      have hne : ¬ Operand.value d = o := fun he => ho he.symm
      rw [ih (by rwa [hstep]), hstep]
      simp [hne]

theorem foldl_users {vs : List Value} {uses : ValueId → List Use} {d : ValueId}
    (hnd : (vs.map (·.id)).Nodup) (hnew : ∀ u ∈ uses d, ∀ v ∈ vs, u.user ≠ v.id) :
    vs.foldl (fun uses v => v.operands.foldl (noteUse v) uses) uses d =
      uses d ++ (vs.filter (·.refersTo d)).map fun v => ⟨v.id, v.block⟩ := by
  induction vs generalizing uses with
  | nil => simp
  | cons v vs ih =>
    obtain ⟨hv, hnd⟩ := List.nodup_cons.mp hnd
    have hlast : (uses d).getLast?.any (·.user == v.id) = false := by
      cases hu : (uses d).getLast? with
      | none => rfl
      | some u =>
        have hne := hnew u (List.mem_of_getLast? hu) v List.mem_cons_self
        simpa using hne
    have hstep := foldl_noteUse hlast v.operands
    rw [List.foldl_cons, ih hnd]
    · rw [hstep]
      by_cases hr : .value d ∈ v.operands <;> simp [Value.refersTo, hr]
    · intro u hu w hw
      rw [hstep, List.mem_append] at hu
      rcases hu with hu | hu
      · exact hnew u hu w (List.mem_cons_of_mem _ hw)
      · have hw' : w.id ∈ vs.map (·.id) := List.mem_map_of_mem hw
        split at hu
        · obtain rfl := List.mem_singleton.mp hu
          intro he
          exact hv (by rwa [← he] at hw')
        · simp at hu

theorem map_id_addUse (user : Value) (values : List Value) (o : Operand) :
    (addUse user values o).map (·.id) = values.map (·.id) := by
  cases o with
  | literal lit => rfl
  | value d =>
    simp only [addUse]
    split
    · rfl
    · apply map_modify_of_eq
      intro v
      split <;> rfl

theorem map_id_usage (fn : Func) : fn.usage.map (·.id) = fn.values.map (·.id) := by
  have hstep : ∀ (values : List Value) (v : Value),
      (v.operands.foldl (addUse v) values).map (·.id) = values.map (·.id) := by
    intro values v
    refine List.foldlRecOn v.operands (addUse v)
      (motive := fun vs : List Value => vs.map (·.id) = values.map (·.id)) rfl ?_
    intro vs hvs o _
    exact (map_id_addUse v vs o).trans hvs
  refine List.foldlRecOn fn.values _
    (motive := fun vs : List Value => vs.map (·.id) = fn.values.map (·.id)) ?_ ?_
  · simp [Function.comp_def]
  · intro vs hvs v _
    exact (hstep vs v).trans hvs

theorem usage_eq {fn : Func} (hid : ∀ {i v}, fn.value? i = some v → v.id = i) :
    fn.usage = fn.values.map (withUses fn.users) := by
  have hrun : fn.usage = fn.values.map (withUses
      (fn.values.foldl (fun uses v => v.operands.foldl (noteUse v) uses) fun _ => [])) := by
    have hstart : fn.values.map (fun v => { v with uses := [] }) =
        fn.values.map (withUses fun _ => []) := rfl
    rw [usage, hstart]
    refine List.foldl_hom (fun uses => fn.values.map (withUses uses)) fun uses v => ?_
    exact List.foldl_hom (fun uses => fn.values.map (withUses uses)) fun uses o =>
      addUse_withUses hid v uses o
  rw [hrun]
  congr 2
  funext d
  rw [foldl_users (nodup_of_number hid) (by simp)]
  rfl

/-! Edges -/

/-- The targets of the last instruction of a block. -/
def exits (fn : Func) (b : Block) : List BlockId := (fn.lastInstr? b).elim [] (·.targets)

/-- The distinct targets of the last instruction of a block. -/
def successors (fn : Func) (b : Block) : List BlockId := (fn.exits b).eraseDups

/-- The blocks that a block succeeds. -/
def predecessors (fn : Func) (id : BlockId) : List BlockId :=
  (fn.blocks.filter fun b => (fn.exits b).contains id).map (·.id)

theorem mem_exits {fn : Func} {b : Block} {c : BlockId} :
    c ∈ fn.exits b ↔ ∃ v, fn.lastInstr? b = some v ∧ c ∈ v.targets := by
  unfold exits
  cases fn.lastInstr? b <;> simp

theorem mem_successors {fn : Func} {b : Block} {c : BlockId} :
    c ∈ fn.successors b ↔ ∃ v, fn.lastInstr? b = some v ∧ c ∈ v.targets := by
  rw [successors, List.mem_eraseDups, mem_exits]

theorem nodup_successors (fn : Func) (b : Block) : (fn.successors b).Nodup := by
  have hnd := nodup_foldl_insert (fn.exits b) List.nodup_nil
  rw [foldl_insert_eq_eraseDups] at hnd
  simpa [successors] using hnd

structure Flow where
  succs : BlockId → List BlockId
  preds : BlockId → List BlockId

def withFlow (f : Flow) (b : Block) : Block :=
  { b with preds := f.preds b.id, succs := f.succs b.id }

/-- The edges between all blocks after one more was found. -/
def noteFlow (source : BlockId) (f : Flow) (target : BlockId) : Flow :=
  if target ∈ f.succs source then f
  else
    ⟨Function.update f.succs source (f.succs source ++ [target]),
      Function.update f.preds target (f.preds target ++ [source])⟩

theorem addFlow_withFlow {blocks : List Block}
    (hid : ∀ {i b}, lookup blocks i = some b → b.id = i) {source target : BlockId} {b : Block}
    (hsource : lookup blocks source = some b) (htarget : 0 ≤ target) (f : Flow) :
    addFlow source (blocks.map (withFlow f)) target =
      blocks.map (withFlow (noteFlow source f target)) := by
  have hany : (lookup (blocks.map (withFlow f)) source).any (·.succs.contains target) =
      decide (target ∈ f.succs source) := by
    simp [lookup_map, hsource, withFlow, hid hsource]
  unfold addFlow noteFlow
  rw [hany]
  by_cases hm : target ∈ f.succs source
  · simp [hm]
  · simp only [hm, decide_false, Bool.false_eq_true, if_false]
    rw [modify_map_of_number hid _ _ (lookup_bounds hsource).1,
      modify_map_of_number hid _ _ htarget]
    apply List.map_congr_left
    intro c _
    by_cases hs : c.id = source <;> by_cases ht : c.id = target <;>
      simp_all [withFlow]

theorem foldl_addFlow {blocks : List Block}
    (hid : ∀ {i b}, lookup blocks i = some b → b.id = i) {source : BlockId} {b : Block}
    (hsource : lookup blocks source = some b) {ts : List BlockId} (hts : ∀ t ∈ ts, 0 ≤ t)
    (f : Flow) :
    ts.foldl (addFlow source) (blocks.map (withFlow f)) =
      blocks.map (withFlow (ts.foldl (noteFlow source) f)) := by
  induction ts generalizing f with
  | nil => rfl
  | cons t ts ih =>
    rw [List.foldl_cons, addFlow_withFlow hid hsource (hts t List.mem_cons_self),
      ih fun u hu => hts u (List.mem_cons_of_mem _ hu), List.foldl_cons]

theorem succs_foldl_noteFlow (source : BlockId) (ts : List BlockId) (f : Flow) :
    (ts.foldl (noteFlow source) f).succs = Function.update f.succs source
      (ts.foldl (fun acc t => if t ∈ acc then acc else acc ++ [t]) (f.succs source)) := by
  induction ts generalizing f with
  | nil => simp
  | cons t ts ih =>
    rw [List.foldl_cons, ih, List.foldl_cons]
    by_cases hm : t ∈ f.succs source <;> simp [noteFlow, hm]

theorem preds_foldl_noteFlow (source : BlockId) (ts : List BlockId) (f : Flow) (c : BlockId) :
    (ts.foldl (noteFlow source) f).preds c =
      f.preds c ++ if c ∈ ts ∧ c ∉ f.succs source then [source] else [] := by
  induction ts generalizing f with
  | nil => simp
  | cons t ts ih =>
    rw [List.foldl_cons, ih]
    by_cases hm : t ∈ f.succs source
    · have hc : c ∉ f.succs source → c ≠ t := fun h he => h (he ▸ hm)
      have hiff : (c ∈ ts ∧ c ∉ f.succs source) ↔ (c ∈ t :: ts ∧ c ∉ f.succs source) := by
        simp only [List.mem_cons]
        tauto
      simp only [noteFlow, if_pos hm, hiff]
    · by_cases hc : c = t
      · subst hc
        simp [noteFlow, hm]
      · simp [noteFlow, hm, hc]

theorem foldl_flow (exits : Block → List BlockId) {bs : List Block} {f : Flow}
    (hnd : (bs.map (·.id)).Nodup) (hnew : ∀ b ∈ bs, f.succs b.id = []) :
    (∀ b ∈ bs, (bs.foldl (fun f b => (exits b).foldl (noteFlow b.id) f) f).succs b.id =
        (exits b).eraseDups) ∧
      (∀ c, c ∉ bs.map (·.id) →
        (bs.foldl (fun f b => (exits b).foldl (noteFlow b.id) f) f).succs c = f.succs c) ∧
      ∀ c, (bs.foldl (fun f b => (exits b).foldl (noteFlow b.id) f) f).preds c =
        f.preds c ++ (bs.filter fun b => (exits b).contains c).map (·.id) := by
  induction bs generalizing f with
  | nil => simp
  | cons b bs ih =>
    obtain ⟨hb, hnd⟩ := List.nodup_cons.mp hnd
    have hempty : f.succs b.id = [] := hnew b List.mem_cons_self
    have hsuccs : ((exits b).foldl (noteFlow b.id) f).succs =
        Function.update f.succs b.id (exits b).eraseDups := by
      rw [succs_foldl_noteFlow, foldl_insert_eq_eraseDups, hempty]
      simp
    have hother : ∀ c ∈ bs, ((exits b).foldl (noteFlow b.id) f).succs c.id = [] := by
      intro c hc
      have hc' : c.id ∈ bs.map (·.id) := List.mem_map_of_mem hc
      have hne : c.id ≠ b.id := fun he => hb (by rwa [he] at hc')
      rw [hsuccs, Function.update_of_ne hne, hnew c (List.mem_cons_of_mem _ hc)]
    obtain ⟨hin, hout, hpreds⟩ := ih hnd hother
    refine ⟨fun c hc => ?_, fun c hc => ?_, fun c => ?_⟩
    · rcases List.mem_cons.mp hc with rfl | hc
      · rw [List.foldl_cons, hout _ hb, hsuccs, Function.update_self]
      · exact hin c hc
    · rw [List.map_cons, List.mem_cons, not_or] at hc
      rw [List.foldl_cons, hout c hc.2, hsuccs, Function.update_of_ne hc.1]
    · rw [List.foldl_cons, hpreds, preds_foldl_noteFlow, hempty]
      by_cases hm : c ∈ exits b <;> simp [hm]

theorem flow_eq {fn : Func} (hid : ∀ {i b}, fn.block? i = some b → b.id = i)
    (hexits : ∀ b ∈ fn.blocks, ∀ t ∈ fn.exits b, 0 ≤ t) :
    fn.flow = fn.blocks.map fun b =>
      { b with preds := fn.predecessors b.id, succs := fn.successors b } := by
  have hrun : ∀ bs ⊆ fn.blocks, ∀ f : Flow,
      bs.foldl (fun blocks b => (fn.exits b).foldl (addFlow b.id) blocks)
        (fn.blocks.map (withFlow f)) =
      fn.blocks.map (withFlow
        (bs.foldl (fun f b => (fn.exits b).foldl (noteFlow b.id) f) f)) := by
    intro bs hbs
    induction bs with
    | nil => exact fun f => rfl
    | cons b bs ih =>
      intro f
      have hb : b ∈ fn.blocks := hbs List.mem_cons_self
      rw [List.foldl_cons, foldl_addFlow hid (lookup_number hid hb) (hexits b hb),
        ih fun c hc => hbs (List.mem_cons_of_mem _ hc), List.foldl_cons]
  obtain ⟨hsuccs, -, hpreds⟩ := foldl_flow fn.exits (f := ⟨fun _ => [], fun _ => []⟩)
    (nodup_of_number hid) (by simp)
  refine (hrun fn.blocks (List.Subset.refl _) ⟨fun _ => [], fun _ => []⟩).trans ?_
  apply List.map_congr_left
  intro b hb
  simp only [withFlow, hsuccs b hb, hpreds, List.nil_append]
  rfl

/-- Numbers are positions, and last instructions lead to such numbers only. -/
structure Linkable (fn : Func) : Prop where
  block_id : ∀ {i b}, fn.block? i = some b → b.id = i
  value_id : ∀ {i v}, fn.value? i = some v → v.id = i
  exits_nonneg : ∀ b ∈ fn.blocks, ∀ t ∈ fn.exits b, 0 ≤ t

def terminator? (fn : Func) (b : BlockId) : Option Value := (fn.block? b).bind fn.lastInstr?

namespace Linkable

variable {fn : Func}

theorem linked_eq (h : fn.Linkable) :
    fn.linked = { fn with
      blocks := fn.blocks.map fun b =>
        { b with preds := fn.predecessors b.id, succs := fn.successors b }
      values := fn.values.map fun v => { v with uses := fn.users v.id } } := by
  simp only [linked, flow_eq h.block_id h.exits_nonneg, usage_eq h.value_id]
  rfl

theorem linked_block? (h : fn.Linkable) (i : BlockId) :
    fn.linked.block? i = (fn.block? i).map fun b =>
      { b with preds := fn.predecessors b.id, succs := fn.successors b } := by
  rw [h.linked_eq]
  exact lookup_map _ _ _

theorem linked_value? (h : fn.Linkable) (i : ValueId) :
    fn.linked.value? i = (fn.value? i).map fun v => { v with uses := fn.users v.id } := by
  rw [h.linked_eq]
  exact lookup_map _ _ _

theorem linked_terminator? (h : fn.Linkable) (p : BlockId) :
    fn.linked.terminator? p =
      (fn.terminator? p).map fun v => { v with uses := fn.users v.id } := by
  simp only [terminator?, h.linked_block?]
  cases fn.block? p with
  | none => rfl
  | some b =>
    simp only [Option.map_some, Option.bind_some, lastInstr?]
    cases b.instrs.getLast? with
    | none => rfl
    | some id => exact h.linked_value? id

theorem mem_users (h : fn.Linkable) {id : ValueId} {u : Use} : u ∈ fn.users id ↔
    ∃ w, fn.value? u.user = some w ∧ w.block = u.block ∧ w.refersTo id = true := by
  simp only [users, List.mem_map, List.mem_filter]
  constructor
  · rintro ⟨w, ⟨hw, hr⟩, rfl⟩
    exact ⟨w, lookup_number h.value_id hw, rfl, hr⟩
  · rintro ⟨w, hw, hb, hr⟩
    refine ⟨w, ⟨mem_of_lookup hw, hr⟩, ?_⟩
    rw [h.value_id hw, hb]

theorem mem_predecessors (h : fn.Linkable) {i p : BlockId} :
    p ∈ fn.predecessors i ↔ ∃ v, fn.terminator? p = some v ∧ i ∈ v.targets := by
  simp only [predecessors, List.mem_map, List.mem_filter, List.contains_eq_mem,
    decide_eq_true_eq]
  constructor
  · rintro ⟨b, ⟨hb, hm⟩, rfl⟩
    obtain ⟨v, hv, hi⟩ := mem_exits.mp hm
    have he : fn.block? b.id = some b := lookup_number h.block_id hb
    exact ⟨v, by simp only [terminator?, he, Option.bind_some, hv], hi⟩
  · rintro ⟨v, hv, hi⟩
    obtain ⟨b, hb, hlast⟩ := Option.bind_eq_some_iff.mp hv
    exact ⟨b, ⟨mem_of_lookup hb, mem_exits.mpr ⟨v, hlast, hi⟩⟩, h.block_id hb⟩

end Linkable

end Func

end TypeFlow
