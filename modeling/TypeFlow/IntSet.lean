/-! Finite sets of integers, kept in ascending order. -/

namespace TypeFlow

structure IntSet where
  elems : List Int
  ascending : elems.Pairwise (· < ·)
  deriving DecidableEq, Repr

namespace IntSet

def empty : IntSet := ⟨[], .nil⟩

instance : EmptyCollection IntSet := ⟨empty⟩

instance : Inhabited IntSet := ⟨empty⟩

def contains (s : IntSet) (x : Int) : Bool := s.elems.contains x

def size (s : IntSet) : Nat := s.elems.length

/-- Puts `x` before the first greater element, unless it is there already. -/
def insertList (x : Int) : List Int → List Int
  | [] => [x]
  | y :: ys => if x < y then x :: y :: ys else if x = y then y :: ys else y :: insertList x ys

theorem mem_insertList {x y : Int} {l : List Int} : y ∈ insertList x l ↔ y = x ∨ y ∈ l := by
  induction l with
  | nil => simp [insertList]
  | cons z l ih =>
    unfold insertList
    split
    · simp
    · split
      · next h => simp [h]
      · simp only [List.mem_cons, ih]
        exact or_left_comm

theorem pairwise_insertList {x : Int} {l : List Int} (h : l.Pairwise (· < ·)) :
    (insertList x l).Pairwise (· < ·) := by
  induction l with
  | nil => simp [insertList]
  | cons z l ih =>
    obtain ⟨hz, hl⟩ := List.pairwise_cons.mp h
    unfold insertList
    split
    · next hxz =>
      refine List.pairwise_cons.mpr ⟨fun w hw => ?_, h⟩
      rcases List.mem_cons.mp hw with rfl | hw
      · exact hxz
      · exact Int.lt_trans hxz (hz w hw)
    · split
      · exact h
      · refine List.pairwise_cons.mpr ⟨fun w hw => ?_, ih hl⟩
        rcases mem_insertList.mp hw with rfl | hw
        · omega
        · exact hz w hw

def insert (s : IntSet) (x : Int) : IntSet :=
  ⟨insertList x s.elems, pairwise_insertList s.ascending⟩

def erase (s : IntSet) (x : Int) : IntSet :=
  ⟨s.elems.erase x, s.ascending.sublist List.erase_sublist⟩

def ofList (xs : List Int) : IntSet := xs.foldl insert empty

@[simp] theorem contains_insert (s : IntSet) (x y : Int) :
    (s.insert x).contains y = (y == x || s.contains y) := by
  rw [Bool.eq_iff_iff]
  simp [contains, insert, mem_insertList]

@[simp] theorem contains_empty (x : Int) : (∅ : IntSet).contains x = false := rfl

theorem nodup (s : IntSet) : s.elems.Nodup := s.ascending.imp fun h => Int.ne_of_lt h

theorem contains_erase (s : IntSet) (x y : Int) :
    (s.erase x).contains y = true ↔ y ≠ x ∧ s.contains y = true := by
  simp [contains, erase, s.nodup.mem_erase_iff]

theorem ext_of_contains {a b : IntSet} (h : ∀ x, a.contains x = b.contains x) : a = b := by
  have hmem : ∀ x, x ∈ a.elems ↔ x ∈ b.elems := fun x => by
    simpa [contains] using congrArg (· = true) (h x)
  have hperm := (List.perm_ext_iff_of_nodup a.nodup b.nodup).mpr hmem
  have heq : a.elems = b.elems := hperm.eq_of_pairwise
    (fun x y _ _ hxy hyx => absurd (Int.lt_trans hxy hyx) (Int.lt_irrefl x)) a.ascending b.ascending
  cases a
  cases b
  cases heq
  rfl

end IntSet

end TypeFlow
