/-! Queues of pending work. An item is added at the new end and taken from either end. -/

namespace TypeFlow

/-- Which item is taken first. -/
inductive Order where
  | oldest
  | newest
  deriving DecidableEq, Repr

/-- The items stand in the slots from `head` up to `tail`, the oldest first. The slots around them
are free, and a queue without items starts over at the first slot. -/
structure Queue (α : Type) where
  slots : Array α
  head : Nat
  tail : Nat
  tail_le : tail ≤ slots.size
  started_over : head = 0 ∨ head < tail
  deriving DecidableEq, Repr

namespace Queue

variable {α : Type}

/-- The queue without items in some free slots. -/
def vacant (slots : Array α) : Queue α := ⟨slots, 0, 0, Nat.zero_le _, Or.inl rfl⟩

instance : EmptyCollection (Queue α) := ⟨vacant #[]⟩

/-- The items from the oldest to the newest. -/
def toList (q : Queue α) : List α := (q.slots.toList.take q.tail).drop q.head

def length (q : Queue α) : Nat := q.tail - q.head

def isEmpty (q : Queue α) : Bool := q.length = 0

/-- Fills the slot behind the last item, or a new one if there is none. -/
def push (q : Queue α) (x : α) : Queue α :=
  if h : q.tail < q.slots.size then
    { q with
      slots := q.slots.set q.tail x
      tail := q.tail + 1
      tail_le := by rw [Array.size_set]; exact h
      started_over := by have := q.started_over; omega }
  else
    { q with
      slots := q.slots.push x
      tail := q.tail + 1
      tail_le := by simpa using q.tail_le
      started_over := by have := q.started_over; omega }

/-- The queue of the items between two slots. The slots are used again from the first on when there
are no items. -/
def between (slots : Array α) (head tail : Nat) (h : tail ≤ slots.size) : Queue α :=
  if hlt : head < tail then { slots, head, tail, tail_le := h, started_over := Or.inr hlt }
  else vacant slots

theorem head_lt_size (q : Queue α) (h : q.head < q.tail) : q.head < q.slots.size :=
  Nat.lt_of_lt_of_le h q.tail_le

theorem last_lt_size (q : Queue α) (h : q.head < q.tail) : q.tail - 1 < q.slots.size := by
  have hle := q.tail_le
  omega

/-- Takes the first item and clears its slot. -/
def popOldest? [Inhabited α] (q : Queue α) : Option (α × Queue α) :=
  if h : q.head < q.tail then
    have hhead := q.head_lt_size h
    some (q.slots[q.head],
      between (q.slots.set q.head default) (q.head + 1) q.tail (by simpa using q.tail_le))
  else none

/-- Takes the last item and clears its slot. -/
def popNewest? [Inhabited α] (q : Queue α) : Option (α × Queue α) :=
  if h : q.head < q.tail then
    have hlast := q.last_lt_size h
    some (q.slots[q.tail - 1],
      between (q.slots.set (q.tail - 1) default) q.head (q.tail - 1)
        (by rw [Array.size_set]; exact Nat.le_of_lt hlast))
  else none

/-- Takes an item, unless there is none. -/
def pop? [Inhabited α] (q : Queue α) : Order → Option (α × Queue α)
  | .oldest => q.popOldest?
  | .newest => q.popNewest?

@[simp] theorem length_toList (q : Queue α) : q.toList.length = q.length := by
  have := q.tail_le
  simp [toList, length]
  omega

theorem isEmpty_iff (q : Queue α) : q.isEmpty = true ↔ q.toList = [] := by
  rw [← List.length_eq_zero_iff, length_toList]
  simp [isEmpty]

@[simp] theorem toList_push (q : Queue α) (x : α) : (q.push x).toList = q.toList ++ [x] := by
  have hle : q.tail ≤ q.slots.toList.length := q.tail_le
  have hhead : q.head ≤ (q.slots.toList.take q.tail).length := by
    have := q.started_over
    rw [List.length_take]
    omega
  unfold push toList
  split
  · next h =>
    rw [Array.toList_set, List.take_succ_eq_append_getElem (by simpa using h),
      List.getElem_set_self, List.take_set_of_le (Nat.le_refl _),
      List.drop_append_of_le_length hhead]
  · next h =>
    have heq : q.tail = q.slots.toList.length := Nat.le_antisymm hle (Nat.not_lt.mp h)
    rw [heq] at hhead
    simp only [Array.toList_push, heq]
    rw [List.take_of_length_le (by simp), List.take_length,
      List.drop_append_of_le_length (by simpa using hhead)]

@[simp] theorem toList_between (slots : Array α) (head tail : Nat) (h : tail ≤ slots.size) :
    (between slots head tail h).toList = (slots.toList.take tail).drop head := by
  unfold between toList
  split
  · rfl
  · next hlt =>
    have hlen : (slots.toList.take tail).length ≤ head := by
      rw [List.length_take]
      omega
    rw [List.drop_eq_nil_of_le hlen]
    rfl

end Queue

end TypeFlow
