import Mathlib.Data.List.Basic
import TypeFlow.Flow.Solver

/-! A queue is a list to those who use it: an item goes to the end, and the first or the last one is
taken. Where its items stand, which slots are cleared and when they are used again do not show. -/

namespace TypeFlow

namespace Queue

variable {α σ : Type}

/-- The item that leaves a list, and what stays. -/
def taken? : Order → List α → Option (α × List α)
  | .oldest, [] => none
  | .oldest, x :: rest => some (x, rest)
  | .newest, l => l.getLast?.map fun x => (x, l.dropLast)

theorem taken?_eq_none_iff (order : Order) {l : List α} : taken? order l = none ↔ l = [] := by
  cases order <;> cases l <;> simp [taken?]

theorem split_of_taken? {order : Order} {l rest : List α} {x : α}
    (h : taken? order l = some (x, rest)) :
    ∃ before after, l = before ++ x :: after ∧ rest = before ++ after := by
  cases order with
  | oldest =>
    cases l with
    | nil => cases h
    | cons y l =>
      cases h
      exact ⟨[], rest, rfl, rfl⟩
  | newest =>
    obtain ⟨y, hlast, heq⟩ := Option.map_eq_some_iff.mp h
    cases heq
    exact ⟨l.dropLast, [], (List.dropLast_append_getLast? x hlast).symm, (List.append_nil _).symm⟩

/-- What can be asked of a queue. The order may change from one call to the next. -/
inductive Call (α : Type) where
  | push (x : α)
  | pop (order : Order)
  | length

/-- What is answered. A pop fails when there is nothing to take. -/
inductive Answer (α : Type) where
  | done
  | item (x : α)
  | failed
  | count (n : Nat)

def Call.onList : Call α → List α → Answer α × List α
  | .push x, l => (.done, l ++ [x])
  | .pop order, l =>
    match taken? order l with
    | some (x, rest) => (.item x, rest)
    | none => (.failed, l)
  | .length, l => (.count l.length, l)

def run (call : Call α → σ → Answer α × σ) (s : σ) : List (Call α) → List (Answer α) × σ
  | [] => ([], s)
  | c :: calls =>
    let (answer, s) := call c s
    let (answers, s) := run call s calls
    (answer :: answers, s)

def Call.pushed? : Call α → Option α
  | .push x => some x
  | .pop _ | .length => none

def Answer.item? : Answer α → Option α
  | .item x => some x
  | .done | .failed | .count _ => none

theorem onList_perm (c : Call α) (l : List α) :
    (l ++ c.pushed?.toList).Perm ((c.onList l).1.item?.toList ++ (c.onList l).2) := by
  cases c with
  | push x => exact .refl _
  | length => simp [Call.onList, Call.pushed?, Answer.item?]
  | pop order =>
    cases h : taken? order l with
    | none => simp [Call.onList, h, Call.pushed?, Answer.item?]
    | some p =>
      obtain ⟨before, after, hl, hrest⟩ := split_of_taken? h
      have hcall : (Call.pop order).onList l = (.item p.1, p.2) := by rw [Call.onList, h]
      rw [hcall, hl, hrest]
      simp [Call.pushed?, Answer.item?]

/-- What comes in goes out once or is still there. -/
theorem run_perm (l : List α) (calls : List (Call α)) :
    (l ++ calls.filterMap Call.pushed?).Perm
      ((run Call.onList l calls).1.filterMap Answer.item? ++ (run Call.onList l calls).2) := by
  induction calls generalizing l with
  | nil => simp [run]
  | cons c calls ih =>
    have hfirst := (onList_perm c l).append_right (calls.filterMap Call.pushed?)
    have hrest := (ih (c.onList l).2).append_left (c.onList l).1.item?.toList
    have hall := hfirst.trans ((List.append_assoc _ _ _).symm ▸ hrest)
    simpa [run, List.filterMap_eq_flatMap_toList] using hall

theorem toList_eq_nil_iff (q : Queue α) : q.toList = [] ↔ ¬q.head < q.tail := by
  rw [← isEmpty_iff, isEmpty, length, decide_eq_true_eq]
  omega

variable [Inhabited α]

theorem popOldest?_eq (q : Queue α) :
    q.popOldest?.map (Prod.map id toList) = taken? .oldest q.toList := by
  unfold popOldest?
  split
  · next h =>
    have hhead : q.head < q.slots.toList.length := q.head_lt_size h
    have hlen : q.head < (q.slots.toList.take q.tail).length := by
      rw [List.length_take]
      exact Nat.lt_min.mpr ⟨h, hhead⟩
    have hlist : q.toList = q.slots.toList[q.head] ::
        (q.slots.toList.take q.tail).drop (q.head + 1) := by
      rw [toList, List.drop_eq_getElem_cons hlen, List.getElem_take]
    -- The cleared slot lies before the items that stay.
    rw [hlist, Option.map_some, Prod.map_apply, toList_between, Array.toList_set, List.take_set,
      List.drop_set_of_lt (Nat.lt_succ_self _)]
    rfl
  · next h =>
    rw [q.toList_eq_nil_iff.mpr h]
    rfl

theorem popNewest?_eq (q : Queue α) :
    q.popNewest?.map (Prod.map id toList) = taken? .newest q.toList := by
  unfold popNewest?
  split
  · next h =>
    have hlast : q.tail - 1 < q.slots.toList.length := q.last_lt_size h
    have hlist : q.toList = (q.slots.toList.take (q.tail - 1)).drop q.head ++
        [q.slots.toList[q.tail - 1]] := by
      have htail : q.tail - 1 + 1 = q.tail := by omega
      have hlen : q.head ≤ (q.slots.toList.take (q.tail - 1)).length := by
        rw [List.length_take]
        exact Nat.le_min.mpr ⟨Nat.le_sub_one_of_lt h, Nat.le_of_lt (q.head_lt_size h)⟩
      rw [← List.drop_append_of_le_length hlen, ← List.take_succ_eq_append_getElem hlast, htail]
      rfl
    -- The cleared slot lies behind the items that stay.
    rw [hlist, Option.map_some, Prod.map_apply, toList_between, Array.toList_set,
      List.take_set_of_le (Nat.le_refl _), taken?, List.getLast?_concat, List.dropLast_concat]
    rfl
  · next h =>
    rw [q.toList_eq_nil_iff.mpr h]
    rfl

theorem pop?_eq (q : Queue α) (order : Order) :
    (q.pop? order).map (Prod.map id toList) = taken? order q.toList := by
  cases order with
  | oldest => exact q.popOldest?_eq
  | newest => exact q.popNewest?_eq

theorem pop?_eq_none_iff {q : Queue α} (order : Order) : q.pop? order = none ↔ q.toList = [] := by
  rw [← taken?_eq_none_iff order, ← pop?_eq, Option.map_eq_none_iff]

theorem exists_pop_oldest {q : Queue α} {x : α} {l : List α} (h : q.toList = x :: l) :
    ∃ rest, q.pop? .oldest = some (x, rest) ∧ rest.toList = l := by
  have htaken := q.pop?_eq .oldest
  rw [h] at htaken
  obtain ⟨⟨y, rest⟩, hpop, heq⟩ := Option.map_eq_some_iff.mp htaken
  obtain ⟨rfl, hrest⟩ := Prod.mk.inj heq
  exact ⟨rest, hpop, hrest⟩

def Call.onQueue : Call α → Queue α → Answer α × Queue α
  | .push x, q => (.done, q.push x)
  | .pop order, q =>
    match q.pop? order with
    | some (x, rest) => (.item x, rest)
    | none => (.failed, q)
  | .length, q => (.count q.length, q)

theorem onList_toList (c : Call α) (q : Queue α) :
    c.onList q.toList = Prod.map id toList (c.onQueue q) := by
  cases c with
  | push x => simp [Call.onList, Call.onQueue]
  | length => simp [Call.onList, Call.onQueue]
  | pop order =>
    rw [Call.onList, Call.onQueue, ← pop?_eq]
    cases q.pop? order with
    | none => rfl
    | some p => rfl

theorem run_toList (q : Queue α) (calls : List (Call α)) :
    run Call.onList q.toList calls = Prod.map id toList (run Call.onQueue q calls) := by
  induction calls generalizing q with
  | nil => rfl
  | cons c calls ih =>
    simp only [run, onList_toList, Prod.map_fst, Prod.map_snd, ih]
    rfl

/-- Every slot but those from one up to another is clear. -/
def ClearAround (slots : Array α) (head tail : Nat) : Prop :=
  ∀ i x, slots[i]? = some x → (i < head ∨ tail ≤ i) → x = default

/-- The free slots of a queue are clear. -/
def Cleared (q : Queue α) : Prop := ClearAround q.slots q.head q.tail

theorem ClearAround.set {slots : Array α} {head tail head' tail' i : Nat} {x : α}
    (h : ClearAround slots head tail) (hi : i < slots.size)
    (hx : i < head' ∨ tail' ≤ i → x = default)
    (hout : ∀ j, j ≠ i → j < head' ∨ tail' ≤ j → j < head ∨ tail ≤ j) :
    ClearAround (slots.set i x) head' tail' := by
  intro j y hy hj
  rw [Array.getElem?_set] at hy
  split at hy
  · next heq =>
    subst heq
    exact (Option.some.inj hy).symm.trans (hx hj)
  · next hne => exact h j y hy (hout j (Ne.symm hne) hj)

theorem cleared_between {slots : Array α} {head tail : Nat} (h : tail ≤ slots.size)
    (hclear : ClearAround slots head tail) : (between slots head tail h).Cleared := by
  unfold between
  split
  · exact hclear
  · next hlt =>
    intro i x hx _
    exact hclear i x hx (by omega)

theorem Cleared.push {q : Queue α} (h : q.Cleared) (x : α) : (q.push x).Cleared := by
  have hstart := q.started_over
  unfold Queue.push
  split
  · next hlt =>
    refine ClearAround.set h hlt (fun hout => ?_) fun j hj hout => ?_
    · exact absurd hout (by dsimp only; omega)
    · dsimp only at hout
      omega
  · next hge =>
    intro j y hy hj
    obtain ⟨hlt, rfl⟩ := Array.getElem?_eq_some_iff.mp hy
    dsimp only at hj hlt
    rw [Array.size_push] at hlt
    have hle := q.tail_le
    have hj' : j < q.slots.size := by omega
    refine h j _ ?_ (Or.inl (by omega))
    dsimp only
    rw [Array.getElem_push_lt hj']
    exact Array.getElem?_eq_getElem hj'

theorem Cleared.pop? {q rest : Queue α} (h : q.Cleared) {order : Order} {x : α}
    (hpop : q.pop? order = some (x, rest)) : rest.Cleared := by
  cases order with
  | oldest =>
    change q.popOldest? = _ at hpop
    unfold popOldest? at hpop
    split at hpop
    · next hlt =>
      cases hpop
      exact cleared_between _ (ClearAround.set h (q.head_lt_size hlt) (fun _ => rfl) (by omega))
    · cases hpop
  | newest =>
    change q.popNewest? = _ at hpop
    unfold popNewest? at hpop
    split at hpop
    · next hlt =>
      cases hpop
      exact cleared_between _ (ClearAround.set h (q.last_lt_size hlt) (fun _ => rfl) (by omega))
    · cases hpop

theorem Cleared.onQueue {q : Queue α} (h : q.Cleared) (c : Call α) : (c.onQueue q).2.Cleared := by
  cases c with
  | push x => exact h.push x
  | length => exact h
  | pop order =>
    rw [Call.onQueue]
    cases hpop : q.pop? order with
    | none => exact h
    | some p => exact h.pop? hpop

theorem Cleared.run {q : Queue α} (h : q.Cleared) (calls : List (Call α)) :
    (run Call.onQueue q calls).2.Cleared := by
  induction calls generalizing q with
  | nil => exact h
  | cons c calls ih => exact ih (h.onQueue c)

theorem cleared_empty : ({} : Queue α).Cleared := by
  intro i x hx
  obtain ⟨hlt, -⟩ := Array.getElem?_eq_some_iff.mp hx
  cases hlt

end Queue

namespace Task

variable {t : Task} {s : State}

theorem run_popEdge_eq_error_iff :
    t.popEdge.run s = .error .emptyQueue s ↔ s.edges.toList = [] := by
  rw [← Queue.pop?_eq_none_iff t.options.order]
  simp only [popEdge, EStateM.run_bind, EStateM.run_get]
  cases s.edges.pop? t.options.order with
  | none => exact iff_of_true rfl rfl
  | some p => exact iff_of_false (fun h => by cases h) (fun h => by cases h)

theorem run_popValue_eq_error_iff :
    t.popValue.run s = .error .emptyQueue s ↔ s.ready.toList = [] := by
  rw [← Queue.pop?_eq_none_iff t.options.order]
  simp only [popValue, EStateM.run_bind, EStateM.run_get]
  cases s.ready.pop? t.options.order with
  | none => exact iff_of_true rfl rfl
  | some p => exact iff_of_false (fun h => by cases h) (fun h => by cases h)

end Task

/-- Whatever is asked of a queue that was empty, in whatever order items are taken, it answers as a
list does and holds the same items, and the slots around them are clear. Every item that came in
went out once or is still there. When nothing is left to take, and only then, a pop fails and leaves
the queue as it was; so does the solver, with its whole state. -/
theorem Queue.refines_list :
    (∀ (α : Type) [Inhabited α] (calls : List (Call α)),
      (run Call.onQueue {} calls).1 = (run Call.onList [] calls).1 ∧
      (run Call.onQueue {} calls).2.toList = (run Call.onList [] calls).2 ∧
      (run Call.onQueue {} calls).2.Cleared ∧
      (calls.filterMap Call.pushed?).Perm
        ((run Call.onQueue {} calls).1.filterMap Answer.item? ++
          (run Call.onQueue {} calls).2.toList) ∧
      ∀ order, ((run Call.onQueue {} calls).2.pop? order = none ↔
          (run Call.onList [] calls).2 = []) ∧
        ((run Call.onQueue {} calls).2.pop? order = none →
          (Call.pop order).onQueue (run Call.onQueue {} calls).2 =
            (.failed, (run Call.onQueue {} calls).2))) ∧
    ∀ (t : Task) (s : State),
      (t.popEdge.run s = .error .emptyQueue s ↔ s.edges.toList = []) ∧
      (t.popValue.run s = .error .emptyQueue s ↔ s.ready.toList = []) := by
  refine ⟨fun α _ calls => ?_, fun t s =>
    ⟨Task.run_popEdge_eq_error_iff, Task.run_popValue_eq_error_iff⟩⟩
  have hrun : run Call.onList [] calls = Prod.map id toList (run Call.onQueue {} calls) :=
    run_toList {} calls
  have hperm := run_perm [] calls
  rw [hrun] at hperm ⊢
  refine ⟨rfl, rfl, cleared_empty.run calls, hperm, fun order => ⟨pop?_eq_none_iff order, ?_⟩⟩
  intro hnone
  rw [Call.onQueue, hnone]

end TypeFlow
